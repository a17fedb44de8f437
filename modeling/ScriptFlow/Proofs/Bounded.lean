import ScriptFlow.Proofs.Contribution
import Mathlib.Data.Finset.Card
import Mathlib.Data.Finset.Dedup

/-! Walks end on every graph. What is left to a walk are the ids that it has not met on its way, and
every node that it meets takes one of them. So no node stands twice on a way, and neither the lists
nor the nesting of the actions that are read back outgrow the ids. -/

namespace ScriptFlow

namespace Visit

/-- The node that is met first. -/
def node : Visit → Node
  | plain n | fork n _ _ | loop n _ => n

mutual
/-- The node of a visit is none of those `before` it, and neither it nor they are met again inside
of it. -/
def Apart (before : List String) : Visit → Prop
  | plain n => n.id ∉ before
  | fork n whenTrue whenFalse =>
    n.id ∉ before ∧ ListApart (n.id :: before) whenTrue ∧ ListApart (n.id :: before) whenFalse
  | loop n body => n.id ∉ before ∧ ListApart (n.id :: before) body

/-- What comes after a visit has its node before it. -/
def ListApart (before : List String) : List Visit → Prop
  | [] => True
  | v :: vs => v.Apart before ∧ ListApart (v.node.id :: before) vs
end

end Visit

namespace Action

mutual
/-- How deep actions are nested in an action, itself included. -/
def depth : Action → Nat
  | leaf .. => 1
  | branch _ _ thenBody elseBody => 1 + max (listDepth thenBody) (listDepth elseBody)
  | loop _ _ body => 1 + listDepth body

def listDepth : List Action → Nat
  | [] => 0
  | a :: as => max a.depth (listDepth as)
end

mutual
/-- The lists of actions in an action, at every depth. -/
def bodies : Action → List (List Action)
  | leaf .. => []
  | branch _ _ thenBody elseBody =>
    thenBody :: elseBody :: (listBodies thenBody ++ listBodies elseBody)
  | loop _ _ body => body :: listBodies body

def listBodies : List Action → List (List Action)
  | [] => []
  | a :: as => a.bodies ++ listBodies as
end

/-- Neither the list nor a list in it is longer than `k`, and no deeper nested. -/
structure ListFits (k : Nat) (as : List Action) : Prop where
  depth : listDepth as ≤ k
  length : as.length ≤ k
  bodies : ∀ bs ∈ listBodies as, bs.length ≤ k

structure Fits (k : Nat) (a : Action) : Prop where
  depth : a.depth ≤ k
  bodies : ∀ bs ∈ a.bodies, bs.length ≤ k

theorem ListFits.nil (k : Nat) : ListFits k [] :=
  ⟨Nat.zero_le k, Nat.zero_le k, fun _ h => absurd h List.not_mem_nil⟩

theorem ListFits.cons {k j : Nat} {a : Action} {as : List Action} (ha : a.Fits k)
    (has : ListFits j as) (hlt : j < k) : ListFits k (a :: as) where
  depth := Nat.max_le.mpr ⟨ha.depth, by have := has.depth; omega⟩
  length := by
    have := has.length
    rw [List.length_cons]
    omega
  bodies bs hbs := by
    rcases List.mem_append.mp hbs with hbs | hbs
    · exact ha.bodies bs hbs
    · have := has.bodies bs hbs
      omega

/-- The lists of an action fit into less than the action. -/
theorem ListFits.body {k j : Nat} {as : List Action} (has : ListFits j as) (hlt : j < k) :
    1 + listDepth as ≤ k ∧ ∀ bs ∈ as :: listBodies as, bs.length ≤ k := by
  refine ⟨by have := has.depth; omega, fun bs hbs => ?_⟩
  rcases List.mem_cons.mp hbs with rfl | hbs
  · have := has.length
    omega
  · have := has.bodies bs hbs
    omega

theorem fits_leaf {k j : Nat} (hlt : j < k) (type : String) (fields : Fields) :
    (leaf type fields).Fits k :=
  ⟨by rw [Action.depth]; omega, fun _ h => absurd h List.not_mem_nil⟩

theorem fits_branch {k j : Nat} {ts es : List Action} (ht : ListFits j ts) (he : ListFits j es)
    (hlt : j < k) (condition : Option Json) (extra : Fields) :
    (branch condition extra ts es).Fits k := by
  obtain ⟨htd, htb⟩ := ht.body hlt
  obtain ⟨hed, heb⟩ := he.body hlt
  refine ⟨by rw [Action.depth]; omega, fun bs hbs => ?_⟩
  simp only [Action.bodies, List.mem_cons, List.mem_append] at hbs htb heb
  rcases hbs with hbs | hbs | hbs | hbs
  · exact htb bs (Or.inl hbs)
  · exact heb bs (Or.inl hbs)
  · exact htb bs (Or.inr hbs)
  · exact heb bs (Or.inr hbs)

theorem fits_loop {k j : Nat} {bs : List Action} (hb : ListFits j bs) (hlt : j < k)
    (head : LoopHead) (extra : Fields) : (loop head extra bs).Fits k :=
  ⟨(hb.body hlt).1, (hb.body hlt).2⟩

end Action

namespace Graph

/-- How many ids of nodes were not met. -/
def unmet (g : Graph) (visited : List String) : Nat := (g.ids.toFinset \ visited.toFinset).card

section

variable {g : Graph} {stop visited before : List String} {start : Option String} {id : String}

theorem unmet_cons_lt (hid : id ∈ g.ids) (hv : id ∉ visited) :
    g.unmet (id :: visited) < g.unmet visited := by
  refine Finset.card_lt_card (Finset.ssubset_iff_subset_ne.mpr ⟨?_, fun heq => ?_⟩)
  · exact Finset.sdiff_subset_sdiff (Finset.Subset.refl _) (by simp)
  · have hmem : id ∈ g.ids.toFinset \ visited.toFinset := by simp [hid, hv]
    rw [← heq] at hmem
    simp at hmem

theorem unmet_le (g : Graph) (visited : List String) : g.unmet visited ≤ g.ids.toFinset.card :=
  Finset.card_le_card Finset.sdiff_subset

/-- The walk with a limit on how many nodes are met on one way. It gives up on a longer one. -/
def walkWithin (g : Graph) (limit : Nat) (stop visited : List String) (start : Option String) :
    Option (List Visit) :=
  match start with
  | none => some []
  | some id =>
    if id ∈ stop ∨ id ∈ visited then some []
    else
      match g.findLast? id, limit with
      | none, _ => some []
      | some _, 0 => none
      | some n, limit + 1 =>
        match n.kind with
        | .entry => some []
        | .condition => do
          let whenTrue ← g.walkWithin limit stop (id :: visited) (g.target? id .whenTrue)
          let whenFalse ← g.walkWithin limit stop (id :: visited) (g.target? id .whenFalse)
          some [.fork n whenTrue whenFalse]
        | .loop => do
          let body ← g.walkWithin limit (id :: stop) (id :: visited) (g.target? id .body)
          let rest ← g.walkWithin limit stop (id :: visited) (g.target? id .none)
          some (.loop n body :: rest)
        | .action => do
          let rest ← g.walkWithin limit stop (id :: visited) (g.target? id .none)
          some (.plain n :: rest)

/-- A walk stops without a limit where it is told to stop, and at what it has met. -/
theorem walkWithin_of_met (g : Graph) (limit : Nat) (h : id ∈ stop ∨ id ∈ visited) :
    g.walkWithin limit stop visited (some id) = some [] := by
  cases limit <;> (unfold walkWithin; simp only [if_pos h])

/-- A node that is met takes one from the limit and one from what is left. -/
theorem exists_limit_eq {n : Node} {limit : Nat} (hn : g.findLast? id = some n) (hv : id ∉ visited)
    (h : g.unmet visited ≤ limit) : ∃ less, limit = less + 1 ∧ g.unmet (id :: visited) ≤ less := by
  have := g.unmet_cons_lt (mem_ids_of_findLast? hn) hv
  exact ⟨limit - 1, by omega, by omega⟩

/-- A walk meets no more nodes on one way than there are ids left. -/
theorem walkWithin_eq {limit : Nat} (h : g.unmet visited ≤ limit) :
    g.walkWithin limit stop visited start = some (g.walk stop visited start) := by
  fun_induction Graph.walk g stop visited start generalizing limit with
  | case1 => rw [walkWithin]
  | case2 _ _ _ hs => exact walkWithin_of_met g limit (Or.inl hs)
  | case3 _ _ _ _ hv => exact walkWithin_of_met g limit (Or.inr hv)
  | case4 _ _ _ hs hv hn => cases limit <;> simp [walkWithin, hs, hv, hn]
  | case5 _ _ _ hs hv _ hn hkind =>
    obtain ⟨less, rfl, -⟩ := exists_limit_eq hn hv h
    simp [walkWithin, hs, hv, hn, hkind]
  | case6 _ _ _ hs hv _ hn hkind ihTrue ihFalse =>
    obtain ⟨less, rfl, hless⟩ := exists_limit_eq hn hv h
    simp [walkWithin, hs, hv, hn, hkind, ihTrue hless, ihFalse hless]
  | case7 _ _ _ hs hv _ hn hkind ihBody ih =>
    obtain ⟨less, rfl, hless⟩ := exists_limit_eq hn hv h
    simp [walkWithin, hs, hv, hn, hkind, ihBody hless, ih hless]
  | case8 _ _ _ hs hv _ hn hkind ih =>
    obtain ⟨less, rfl, hless⟩ := exists_limit_eq hn hv h
    simp [walkWithin, hs, hv, hn, hkind, ih hless]

/-- No node stands twice on a way. -/
theorem listApart_walk (g : Graph) (stop visited : List String) (start : Option String) :
    Visit.ListApart visited (g.walk stop visited start) := by
  fun_induction Graph.walk g stop visited start with
  | case6 _ _ _ _ hv _ hn _ ihTrue ihFalse =>
    obtain rfl := (mem_of_findLast? hn).2
    exact ⟨⟨hv, ihTrue, ihFalse⟩, trivial⟩
  | case7 _ _ _ _ hv _ hn _ ihBody ih =>
    obtain rfl := (mem_of_findLast? hn).2
    exact ⟨⟨hv, ihBody⟩, ih⟩
  | case8 _ _ _ _ hv _ hn _ ih =>
    obtain rfl := (mem_of_findLast? hn).2
    exact ⟨hv, ih⟩
  | _ => trivial

end

end Graph

namespace Visit

open ScriptFlow.Action

variable {g : Graph}

theorem id_mem {v : Visit} (h : v.Of g) : v.node.id ∈ g.ids := by
  cases v with
  | plain => exact List.mem_map_of_mem h.1
  | fork => exact List.mem_map_of_mem h.1.1
  | loop => exact List.mem_map_of_mem h.1.1

theorem Apart.id_not_mem {before : List String} {v : Visit} (h : v.Apart before) :
    v.node.id ∉ before := by
  cases v with
  | plain => exact h
  | fork => exact h.1
  | loop => exact h.1

/-! Actions fit into what the walk that met their nodes had left. -/

mutual
theorem fits_of_apart : (v : Visit) → v.Of g → ∀ {before : List String}, v.Apart before →
    ∀ {a : Action}, v.toAction = .ok a → a.Fits (g.unmet before)
  | plain n, hv, before, hapart, a, h => by
    have hlt := g.unmet_cons_lt (id_mem (v := .plain n) hv) hapart
    obtain ⟨type, fields, rfl⟩ := Node.eq_leaf_of_leaf h
    exact fits_leaf hlt type fields
  | fork n whenTrue whenFalse, hv, before, hapart, a, h => by
    have hlt := g.unmet_cons_lt (id_mem (v := .fork n whenTrue whenFalse) hv) hapart.1
    obtain ⟨ts, ht, h⟩ := bind_eq_ok.mp h
    obtain ⟨es, he, h⟩ := bind_eq_ok.mp h
    cases h
    exact fits_branch (listFits_of_apart whenTrue hv.2.1 hapart.2.1 ht)
      (listFits_of_apart whenFalse hv.2.2 hapart.2.2 he) hlt _ _
  | loop n body, hv, before, hapart, a, h => by
    have hlt := g.unmet_cons_lt (id_mem (v := .loop n body) hv) hapart.1
    obtain ⟨bs, hb, h⟩ := bind_eq_ok.mp h
    cases h
    obtain ⟨head, extra, heq, -⟩ := n.exists_loop_eq bs
    rw [heq]
    exact fits_loop (listFits_of_apart body hv.2 hapart.2 hb) hlt head extra

theorem listFits_of_apart : (vs : List Visit) → ListOf g vs → ∀ {before : List String},
    ListApart before vs → ∀ {as : List Action}, listToActions vs = .ok as →
      ListFits (g.unmet before) as
  | [], _, before, _, as, h => by
    cases h
    exact .nil _
  | v :: vs, hv, before, hapart, as, h => by
    obtain ⟨b, bs, hb, hbs, rfl⟩ := listToActions_cons_eq_ok.mp h
    exact .cons (fits_of_apart v hv.1 hapart.1 hb) (listFits_of_apart vs hv.2 hapart.2 hbs)
      (g.unmet_cons_lt (id_mem hv.1) hapart.1.id_not_mem)
end

end Visit

namespace Graph

/-- Where the walk from an entry begins. -/
def start? (g : Graph) (entry : Node) : Option String :=
  (g.target? entry.id .none).filter (· ≠ "")

theorem listToActions_of_capability {g : Graph} {entry : Node} {c : Capability}
    (h : g.capability entry = .ok c) : Visit.listToActions (g.walkFrom entry) = .ok c.actions := by
  obtain ⟨as, has, h⟩ := bind_eq_ok.mp h
  obtain ⟨-, -, -, hactions⟩ := Capability.ofFieldsWith_eq_accepted.mp (Checked.orFault_eq_ok.mp h)
  rw [hactions]
  exact has

/-- On every graph the walk from an entry ends, without meeting more nodes on one way than there are
ids, and meets no node again on the way that led to it. What is made of it is a document whose lists
of actions are shorter, and whose nesting is less deep, than there are ids. -/
theorem walks_end (g : Graph) :
    (∀ entry, g.walkWithin g.ids.toFinset.card [] [entry.id] (g.start? entry) =
        some (g.walkFrom entry) ∧ Visit.ListApart [entry.id] (g.walkFrom entry)) ∧
      ∀ base d, g.rebuild base = .ok d →
        List.Forall₂ (fun entry c => Visit.listToActions (g.walkFrom entry) = .ok c.actions)
            g.entries d.capabilities ∧
          ∀ c ∈ d.capabilities, Action.listDepth c.actions < g.ids.toFinset.card ∧
            ∀ as ∈ c.actions :: Action.listBodies c.actions, as.length < g.ids.toFinset.card := by
  refine ⟨fun entry => ⟨walkWithin_eq (g.unmet_le _), g.listApart_walk _ _ _⟩, ?_⟩
  intro base d h
  obtain ⟨cs, hcs, h⟩ := bind_eq_ok.mp h
  obtain ⟨extra, -, h⟩ := bind_eq_ok.mp h
  cases h
  have hread := capabilities_eq_ok.mp hcs
  refine ⟨hread.imp fun entry c hc => listToActions_of_capability hc, fun c hc => ?_⟩
  obtain ⟨entry, hentry, hc⟩ := exists_of_forall₂_right hread c hc
  have hfits := Visit.listFits_of_apart _ (g.listOf_walk _ _ _) (g.listApart_walk _ _ _)
    (listToActions_of_capability hc)
  -- the entry itself is met before the walk begins
  have hlt : g.unmet [entry.id] < g.ids.toFinset.card := by
    have hmem : entry.id ∈ g.ids := List.mem_map_of_mem (List.mem_of_mem_filter hentry)
    exact Nat.lt_of_lt_of_le (unmet_cons_lt hmem List.not_mem_nil) (g.unmet_le [])
  refine ⟨Nat.lt_of_le_of_lt hfits.depth hlt, fun as has => Nat.lt_of_le_of_lt ?_ hlt⟩
  rcases List.mem_cons.mp has with rfl | has
  · exact hfits.length
  · exact hfits.bodies as has

/-- A condition between a loop that runs into itself, an id that two nodes have, an entry and an id
that no node has. -/
def tangled : Graph where
  nodes := [.createEntry "node_1" .zero (.str "main") (.str ""),
    ⟨"node_2", .condition, "if", [("type", .str "if")], .zero, [], [], []⟩,
    ⟨"node_3", .loop, "forEach", [("type", .str "forEach")], .zero, [], [], []⟩,
    ⟨"node_4", .action, "wait", [("type", .str "wait")], .zero, [], [], []⟩,
    ⟨"node_4", .action, "click", [("type", .str "click")], .zero, [], [], []⟩]
  edges := [.structural "node_1" "node_2" .none, .structural "node_2" "node_3" .whenTrue,
    .structural "node_2" "node_4" .whenFalse, .structural "node_3" "node_3" .body,
    .structural "node_3" "node_1" .none, .structural "node_4" "node_5" .none]

theorem walkFrom_eq_getD (g : Graph) (entry : Node) :
    g.walkFrom entry =
      (g.walkWithin g.ids.toFinset.card [] [entry.id] (g.start? entry)).getD [] := by
  rw [walkWithin_eq (g.unmet_le _)]
  rfl

/-- The first node of an id is not met. -/
def untangled : Document where
  capabilities := [{
    name := some "main", description := some "", parameters := some []
    trigger := some (.obj [("type", .str "manual")]), extra := []
    actions := [.branch none [] [.loop (.forEach none none) [] []] [.leaf "click" []]] }]
  extra := []

theorem rebuild_tangled : tangled.rebuild (.obj []) = .ok untangled := by
  refine bind_eq_ok.mpr ⟨_, capabilities_eq_ok.mpr (.cons ?_ .nil), rfl⟩
  simp only [Graph.capability, walkFrom_eq_getD]
  rfl

theorem walks_end_tangled : tangled.rebuild (.obj []) = .ok untangled ∧
    ∀ c ∈ untangled.capabilities, Action.listDepth c.actions < tangled.ids.toFinset.card :=
  ⟨rebuild_tangled, fun c hc => (((walks_end tangled).2 _ _ rebuild_tangled).2 c hc).1⟩

end Graph

end ScriptFlow
