import ScriptFlow.Proofs.Bounded
import Mathlib.Logic.Relation

/-! A walk is told to stop at the loops whose bodies it is in. It has visited them when it enters
their bodies, and no id leaves the visited set of a walk. So a walk with an empty stop set ends in
the same places and gives the same actions. -/

namespace ScriptFlow

/-- What a walk has at a call and before each of its steps. -/
structure WalkState where
  /-- The ids that it is told to stop at. -/
  stop : List String
  visited : List String
  /-- The id that it comes to. -/
  current : Option String
deriving DecidableEq

namespace WalkState

/-- The node that the walk goes on from. -/
def node? (g : Graph) (s : WalkState) : Option Node := do
  let id ← s.current
  if id ∈ s.stop ∨ id ∈ s.visited then none else (g.findLast? id).filter (!·.isEntry)

/-- The state behind an edge of a node that is visited now. -/
def along (g : Graph) (s : WalkState) (n : Node) (branch : Branch) : WalkState :=
  ⟨s.stop, n.id :: s.visited, g.target? n.id branch⟩

/-- The state at the call for the body of a loop, which is told to stop at the loop as well. -/
def inside (g : Graph) (s : WalkState) (n : Node) : WalkState :=
  ⟨n.id :: s.stop, n.id :: s.visited, g.target? n.id .body⟩

/-- The states of the next calls and steps. The walk calls itself for both outcomes of a condition
and for the body of a loop, and steps along the plain edge of a loop or an action. -/
def successors (g : Graph) (s : WalkState) : List WalkState :=
  match s.node? g with
  | none => []
  | some n =>
    match n.kind with
    | .entry => []
    | .condition => [s.along g n .whenTrue, s.along g n .whenFalse]
    | .loop => [s.inside g n, s.along g n .none]
    | .action => [s.along g n .none]

/-- A walk in the state `s` comes to the state `t`. -/
def ComesTo (g : Graph) : WalkState → WalkState → Prop :=
  Relation.ReflTransGen fun s t => t ∈ s.successors g

/-- A walk in the state `s` goes on from the node, now or later. -/
def GoesOnFrom (g : Graph) (s : WalkState) (n : Node) : Prop :=
  ∃ t, s.ComesTo g t ∧ t.node? g = some n

/-- Every id that the walk is told to stop at is visited. -/
def Covered (s : WalkState) : Prop := s.stop ⊆ s.visited

section

variable {g : Graph} {s t : WalkState} {stop visited : List String} {id : String} {m n : Node}

theorem Covered.along (h : s.Covered) (n : Node) (branch : Branch) :
    (s.along g n branch).Covered :=
  List.subset_cons_of_subset _ h

/-- The stop set grows by a loop only, which has been visited by then. -/
theorem Covered.inside (h : s.Covered) (n : Node) : (s.inside g n).Covered :=
  List.cons_subset_cons _ h

theorem Covered.successor (h : s.Covered) : ∀ t ∈ s.successors g, t.Covered := by
  cases hn : s.node? g with
  | none => simp [successors, hn]
  | some n =>
    cases hkind : n.kind with
    | entry => simp [successors, hn, hkind]
    | condition => simp [successors, hn, hkind, h.along]
    | loop => simp [successors, hn, hkind, h.along, h.inside]
    | action => simp [successors, hn, hkind, h.along]

theorem Covered.comesTo (h : s.Covered) (hst : s.ComesTo g t) : t.Covered := by
  induction hst with
  | refl => exact h
  | tail _ ht ih => exact ih.successor _ ht

theorem node?_eq_some (hs : id ∉ stop) (hv : id ∉ visited) (hn : g.findLast? id = some n)
    (hentry : ¬ n.isEntry) : node? g ⟨stop, visited, some id⟩ = some n := by
  simp [node?, hs, hv, hn, hentry]

theorem not_goesOnFrom (h : s.node? g = none) : ¬ s.GoesOnFrom g n := by
  intro hx
  obtain ⟨t, hst, ht⟩ := hx
  rcases hst.cases_head with rfl | ⟨u, hu, -⟩
  · rw [h] at ht
    cases ht
  · simp [successors, h] at hu

/-- A walk goes on from the node at which it is or, after a call or step, from others. -/
theorem goesOnFrom_iff (hm : s.node? g = some m) :
    s.GoesOnFrom g n ↔ n = m ∨ ∃ t ∈ s.successors g, t.GoesOnFrom g n := by
  constructor
  · intro h
    obtain ⟨u, hsu, hu⟩ := h
    rcases hsu.cases_head with rfl | ⟨t, hst, htu⟩
    · exact Or.inl (Option.some.inj (hu.symm.trans hm))
    · exact Or.inr ⟨t, hst, u, htu, hu⟩
  · intro h
    rcases h with rfl | ⟨t, hst, u, htu, hu⟩
    · exact ⟨s, .refl, hm⟩
    · exact ⟨u, .head hst htu, hu⟩

end

end WalkState

namespace Visit

mutual
/-- The visit spares the loops around it: neither its node nor a node inside it is one of them, and
none in the body of a loop is that loop. -/
def Spares (loops : List String) : Visit → Prop
  | plain n => n.id ∉ loops
  | fork n whenTrue whenFalse =>
    n.id ∉ loops ∧ ListSpares loops whenTrue ∧ ListSpares loops whenFalse
  | loop n body => n.id ∉ loops ∧ ListSpares (n.id :: loops) body

def ListSpares (loops : List String) : List Visit → Prop
  | [] => True
  | v :: vs => v.Spares loops ∧ ListSpares loops vs
end

end Visit

/-- The actions from a node on, where `along` gives those along each of its edges. -/
def Node.gather (n : Node) (along : Branch → Except Fault (List Action)) :
    Except Fault (List Action) :=
  match n.kind with
  | .entry => .ok []
  | .condition => do
    let thenBody ← along .whenTrue
    let elseBody ← along .whenFalse
    .ok [n.branch thenBody elseBody]
  | .loop => do
    let body ← along .body
    let rest ← along .none
    .ok (n.loop body :: rest)
  | .action => do
    let a ← n.leaf
    let rest ← along .none
    .ok (a :: rest)

namespace Graph

/-- The actions of a walk whose stop set is empty throughout, in the body of a loop as well. What it
has visited, entries and missing nodes end it. -/
def emit (g : Graph) (visited : List String) (start : Option String) :
    Except Fault (List Action) :=
  match start with
  | none => .ok []
  | some id =>
    if _ : id ∈ visited then .ok []
    else
      match _ : g.findLast? id with
      | none => .ok []
      | some n => n.gather fun branch => g.emit (id :: visited) (g.target? id branch)
termination_by (g.unvisited visited).length
decreasing_by exact unvisited_lt ‹_› ‹_›

section

variable {g : Graph} {stop visited : List String} {start : Option String} {id : String} {n : Node}

theorem emit_of_missing (hn : g.findLast? id = none) : g.emit visited (some id) = .ok [] := by
  rw [emit]
  split
  · rfl
  split
  · rfl
  · next hm =>
    rw [hn] at hm
    cases hm

/-- The walk goes on from a node that it has not met. -/
theorem emit_some (hv : id ∉ visited) (hn : g.findLast? id = some n) :
    g.emit visited (some id) =
      n.gather fun branch => g.emit (id :: visited) (g.target? id branch) := by
  rw [emit, dif_neg hv]
  split
  · next hm =>
    rw [hn] at hm
    cases hm
  · next m hm =>
    rw [hn] at hm
    cases hm
    rfl

/-- A walk that is told to stop only at what it has visited gives the actions of one with an empty
stop set, or its fault. -/
theorem listToActions_walk_eq_emit (h : WalkState.Covered ⟨stop, visited, start⟩) :
    Visit.listToActions (g.walk stop visited start) = g.emit visited start := by
  fun_induction Graph.walk g stop visited start with
  | case1 =>
    rw [emit]
    rfl
  | case2 stop visited id hs =>
    have hv : id ∈ visited := h hs
    rw [emit, dif_pos hv]
    rfl
  | case3 stop visited id _ hv =>
    rw [emit, dif_pos hv]
    rfl
  | case4 stop visited id _ _ hn =>
    rw [emit_of_missing hn]
    rfl
  | case5 stop visited id _ hv n hn hkind =>
    rw [emit_some hv hn, Node.gather, hkind]
    rfl
  | case6 stop visited id _ hv n hn hkind ihTrue ihFalse =>
    obtain rfl := (mem_of_findLast? hn).2
    rw [emit_some hv hn, Node.gather, hkind]
    simp only [← ihTrue (h.along n .whenTrue), ← ihFalse (h.along n .whenFalse),
      Visit.listToActions, Visit.toAction, bind_assoc]
    rfl
  | case7 stop visited id _ hv n hn hkind ihBody ih =>
    obtain rfl := (mem_of_findLast? hn).2
    rw [emit_some hv hn, Node.gather, hkind]
    simp only [← ihBody (h.inside n), ← ih (h.along n .none), Visit.listToActions,
      Visit.toAction, bind_assoc]
    rfl
  | case8 stop visited id _ hv n hn hkind ih =>
    obtain rfl := (mem_of_findLast? hn).2
    rw [emit_some hv hn, Node.gather, hkind]
    simp only [← ih (h.along n .none)]
    rfl

/-- A walk meets the nodes from which it goes on. -/
theorem mem_listNodes_walk : n ∈ Visit.listNodes (g.walk stop visited start) ↔
    WalkState.GoesOnFrom g ⟨stop, visited, start⟩ n := by
  fun_induction Graph.walk g stop visited start with
  | case6 stop visited id hs hv m hn hkind ihTrue ihFalse =>
    obtain rfl := (mem_of_findLast? hn).2
    have hnode := WalkState.node?_eq_some hs hv hn (by simp [Node.isEntry, hkind])
    simp [Visit.listNodes, Visit.nodes, ihTrue, ihFalse, WalkState.goesOnFrom_iff hnode,
      WalkState.successors, WalkState.along, hnode, hkind]
  | case7 stop visited id hs hv m hn hkind ihBody ih =>
    obtain rfl := (mem_of_findLast? hn).2
    have hnode := WalkState.node?_eq_some hs hv hn (by simp [Node.isEntry, hkind])
    simp [Visit.listNodes, Visit.nodes, ihBody, ih, WalkState.goesOnFrom_iff hnode,
      WalkState.successors, WalkState.along, WalkState.inside, hnode, hkind]
  | case8 stop visited id hs hv m hn hkind ih =>
    obtain rfl := (mem_of_findLast? hn).2
    have hnode := WalkState.node?_eq_some hs hv hn (by simp [Node.isEntry, hkind])
    simp [Visit.listNodes, Visit.nodes, ih, WalkState.goesOnFrom_iff hnode,
      WalkState.successors, WalkState.along, hnode, hkind]
  | _ =>
    -- the walk ends here
    refine iff_of_false List.not_mem_nil (WalkState.not_goesOnFrom ?_)
    simp_all [WalkState.node?, Node.isEntry]

/-- A walk meets none of the loops where it is told to stop, and in the body of a loop not that loop
either. -/
theorem listSpares_walk (g : Graph) (stop visited : List String) (start : Option String) :
    Visit.ListSpares stop (g.walk stop visited start) := by
  fun_induction Graph.walk g stop visited start with
  | case6 _ _ _ hs _ _ hn _ ihTrue ihFalse =>
    obtain rfl := (mem_of_findLast? hn).2
    exact ⟨⟨hs, ihTrue, ihFalse⟩, trivial⟩
  | case7 _ _ _ hs _ _ hn _ ihBody ih =>
    obtain rfl := (mem_of_findLast? hn).2
    exact ⟨⟨hs, ihBody⟩, ih⟩
  | case8 _ _ _ hs _ _ hn _ ih =>
    obtain rfl := (mem_of_findLast? hn).2
    exact ⟨hs, ih⟩
  | _ => trivial

end

/-- The state in which the walk from an entry begins. -/
def firstState (g : Graph) (entry : Node) : WalkState := ⟨[], [entry.id], g.start? entry⟩

/-- The capability of an entry whose walk has an empty stop set throughout. -/
def emitCapability (g : Graph) (entry : Node) : Except Fault Capability := do
  let actions ← g.emit [entry.id] (g.start? entry)
  (Capability.ofFieldsWith (capabilityFields entry) actions).orFault "Capability"

/-- The stop set changes nothing. On every graph, in every state that the walk from an entry comes
to, all ids to stop at are visited; it is in these states that the walk meets its nodes. It gives
the actions of a walk with an empty stop set, or its fault, and meets no loop again in the body of
that loop. So the capabilities of the graph are those that walks with an empty stop set give. -/
theorem stop_redundant (g : Graph) :
    (∀ entry, (∀ s, (g.firstState entry).ComesTo g s → s.stop ⊆ s.visited) ∧
      (∀ n, n ∈ Visit.listNodes (g.walkFrom entry) ↔ (g.firstState entry).GoesOnFrom g n) ∧
      Visit.listToActions (g.walkFrom entry) = g.emit [entry.id] (g.start? entry) ∧
      Visit.ListSpares [] (g.walkFrom entry)) ∧
    g.capabilities = g.entries.mapM g.emitCapability := by
  have hfirst : ∀ entry, (g.firstState entry).Covered := fun _ => List.nil_subset _
  have hemit : ∀ entry,
      Visit.listToActions (g.walkFrom entry) = g.emit [entry.id] (g.start? entry) :=
    fun entry => listToActions_walk_eq_emit (hfirst entry)
  refine ⟨fun entry => ⟨fun s hs => (hfirst entry).comesTo hs, fun n => mem_listNodes_walk,
    hemit entry, g.listSpares_walk _ _ _⟩, ?_⟩
  have hcapability : g.capability = g.emitCapability := by
    funext entry
    rw [capability, emitCapability, hemit]
  rw [capabilities, hcapability]

/-- Two loops, one in the other, and edges drawn by hand from the inner body to the outer loop and
from the inner loop to itself. -/
def circling : Graph where
  nodes := [.createEntry "node_1" .zero (.str "main") (.str ""),
    ⟨"node_2", .loop, "forEach", [("type", .str "forEach")], .zero, [], [], []⟩,
    ⟨"node_3", .loop, "while", [("type", .str "while")], .zero, [], [], []⟩,
    ⟨"node_4", .action, "click", [("type", .str "click")], .zero, [], [], []⟩]
  edges := [.structural "node_1" "node_2" .none, .structural "node_2" "node_3" .body,
    .structural "node_3" "node_4" .body, .structural "node_4" "node_2" .none,
    .structural "node_3" "node_3" .none]

def circlingEntry : Node := .createEntry "node_1" .zero (.str "main") (.str "")

/-- The inner body leads back to the outer loop while the walk is told to stop at both loops. -/
theorem comesTo_circling : (circling.firstState circlingEntry).ComesTo circling
    ⟨["node_3", "node_2"], ["node_4", "node_3", "node_2", "node_1"], some "node_2"⟩ := by
  have houter : ⟨["node_2"], ["node_2", "node_1"], some "node_3"⟩ ∈
      (circling.firstState circlingEntry).successors circling := by decide
  have hinner : ⟨["node_3", "node_2"], ["node_3", "node_2", "node_1"], some "node_4"⟩ ∈
      WalkState.successors circling ⟨["node_2"], ["node_2", "node_1"], some "node_3"⟩ := by decide
  refine .head houter (.head hinner (.single ?_))
  decide

theorem listToActions_circling : Visit.listToActions (circling.walkFrom circlingEntry) =
    .ok [.loop (.forEach none none) [] [.loop (.whileLoop none none) [] [.leaf "click" []]]] := by
  rw [walkFrom_eq_getD]
  rfl

theorem stop_redundant_circling :
    ((circling.firstState circlingEntry).ComesTo circling
        ⟨["node_3", "node_2"], ["node_4", "node_3", "node_2", "node_1"], some "node_2"⟩ ∧
      ["node_3", "node_2"] ⊆ ["node_4", "node_3", "node_2", "node_1"]) ∧
    circling.emit [circlingEntry.id] (circling.start? circlingEntry) =
      .ok [.loop (.forEach none none) [] [.loop (.whileLoop none none) [] [.leaf "click" []]]] := by
  obtain ⟨hcovered, -, hemit, -⟩ := (stop_redundant circling).1 circlingEntry
  exact ⟨⟨comesTo_circling, hcovered _ comesTo_circling⟩, hemit.symm.trans listToActions_circling⟩

end Graph

end ScriptFlow
