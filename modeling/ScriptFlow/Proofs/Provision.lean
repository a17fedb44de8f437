import ScriptFlow.Proofs.Integrity

/-! Which data edges a flow gets. Computing them links the last node that writes a variable to every
node that reads it, once for each pair of ids, and adds nothing the second time. -/

namespace ScriptFlow

/-- The last of the nodes that write a variable has the id `p`. -/
def LastProducer (nodes : List Node) (v p : String) : Prop :=
  ∃ before n after, nodes = before ++ n :: after ∧ v ∈ n.outputs ∧ n.id = p ∧
    ∀ m ∈ after, v ∉ m.outputs

/-- A node reads a variable that another one, with the id `p`, is the last to write. -/
structure Supplies (nodes : List Node) (p : String) (n : Node) (v : String) : Prop where
  named : p ≠ ""
  other : p ≠ n.id
  input : v ∈ n.inputs
  last : LastProducer nodes v p

/-- The first node with the id `c` that reads from `p` reads `v`, and no variable from `p` before
`v`. -/
def FirstUse (nodes : List Node) (p c v : String) : Prop :=
  ∃ before n after, nodes = before ++ n :: after ∧ n.id = c ∧ Supplies nodes p n v ∧
    (∀ m ∈ before, m.id = c → ∀ w, ¬ Supplies nodes p m w) ∧
    ∃ pre post, n.inputs = pre ++ v :: post ∧ ∀ w ∈ pre, ¬ LastProducer nodes w p

/-- A data edge leads from `p` to `c`. -/
def Graph.Links (g : Graph) (p c : String) : Prop := ∃ e ∈ g.dataEdges, e.source = p ∧ e.target = c

/-! One variable. -/

theorem producer?_eq_some {nodes : List Node} {v p : String} :
    producer? nodes v = some p ↔ LastProducer nodes v p := by
  constructor
  · intro h
    obtain ⟨n, hn, rfl⟩ := Option.map_eq_some_iff.mp h
    obtain ⟨hv, after, before, hsplit, hafter⟩ := List.find?_eq_some_iff_append.mp hn
    refine ⟨before.reverse, n, after.reverse, ?_, by simpa using hv, rfl, ?_⟩
    · simpa using congrArg List.reverse hsplit
    · intro m hm
      simpa using hafter m (List.mem_reverse.mp hm)
  · rintro ⟨before, n, after, rfl, hv, rfl, hafter⟩
    have hfind : (before ++ n :: after).reverse.find? (·.outputs.contains v) = some n := by
      refine List.find?_eq_some_iff_append.mpr ⟨by simpa using hv, after.reverse, before.reverse,
        by simp, ?_⟩
      intro m hm
      simpa using hafter m (List.mem_reverse.mp hm)
    rw [producer?, hfind]
    rfl

/-- The use of one variable by a node, if another node supplies it. -/
def use? (nodes : List Node) (n : Node) (v : String) : Option Use :=
  match producer? nodes v with
  | some p => if p = "" ∨ p = n.id then none else some ⟨p, n.id, v⟩
  | none => none

theorem usesOf_eq (nodes : List Node) (n : Node) :
    usesOf nodes n = n.inputs.filterMap (use? nodes n) := rfl

theorem use?_eq_some {nodes : List Node} {n : Node} {v : String} {u : Use} (hv : v ∈ n.inputs) :
    use? nodes n v = some u ↔ u = ⟨u.source, n.id, v⟩ ∧ Supplies nodes u.source n v := by
  constructor
  · intro h
    unfold use? at h
    split at h
    · next p hp =>
      split at h
      · cases h
      · next hne =>
        obtain rfl := Option.some.inj h
        obtain ⟨hnamed, hother⟩ := not_or.mp hne
        exact ⟨rfl, hnamed, hother, hv, producer?_eq_some.mp hp⟩
    · cases h
  · rintro ⟨hu, hs⟩
    rw [use?, producer?_eq_some.mpr hs.last]
    simp only [hs.named, hs.other, or_self, if_false]
    exact congrArg some hu.symm

/-- What a node reads from others is what others supply. -/
theorem mem_usesOf_iff {nodes : List Node} {n : Node} {u : Use} :
    u ∈ usesOf nodes n ↔ u.target = n.id ∧ Supplies nodes u.source n u.variableName := by
  rw [usesOf_eq, List.mem_filterMap]
  constructor
  · rintro ⟨v, hv, h⟩
    obtain ⟨hu, hs⟩ := (use?_eq_some hv).mp h
    rw [hu]
    exact ⟨rfl, hs⟩
  · rintro ⟨ht, hs⟩
    refine ⟨u.variableName, hs.input, (use?_eq_some hs.input).mpr ⟨?_, hs⟩⟩
    rw [← ht]

/-! The uses one after the other, with the pairs that are linked so far. -/

theorem dataEdgesFor_eq_nil {linked : List (String × String)} {us : List Use} :
    dataEdgesFor linked us = [] ↔ ∀ u ∈ us, (u.source, u.target) ∈ linked := by
  induction us generalizing linked with
  | nil => simp [dataEdgesFor]
  | cons u us ih =>
    unfold dataEdgesFor
    split
    · next hu => simp [ih, List.contains_iff_mem.mp hu]
    · next hu => simpa using fun hm => absurd (List.contains_iff_mem.mpr hm) hu

/-- A pair gets an edge if it is used and not linked yet. -/
theorem exists_mem_dataEdgesFor {linked : List (String × String)} {us : List Use} {p c : String} :
    (∃ e ∈ dataEdgesFor linked us, e.source = p ∧ e.target = c) ↔
      (p, c) ∉ linked ∧ ∃ u ∈ us, u.source = p ∧ u.target = c := by
  constructor
  · rintro ⟨e, he, rfl, rfl⟩
    obtain ⟨u, hu, rfl, hnew⟩ := mem_dataEdgesFor he
    exact ⟨hnew, u, hu, rfl, rfl⟩
  · rintro ⟨hnew, u, hu, rfl, rfl⟩
    induction us generalizing linked with
    | nil => exact absurd hu List.not_mem_nil
    | cons w us ih =>
      unfold dataEdgesFor
      rcases List.mem_cons.mp hu with rfl | hu
      · rw [if_neg (by simpa using hnew)]
        exact ⟨_, List.mem_cons_self, rfl, rfl⟩
      · split
        · exact ih hu hnew
        · -- the edge in front may be the one for this pair
          by_cases hw : (u.source, u.target) = (w.source, w.target)
          · obtain ⟨hsource, htarget⟩ := Prod.mk.inj hw
            exact ⟨_, List.mem_cons_self, hsource.symm, htarget.symm⟩
          · have hnew' : (u.source, u.target) ∉ (w.source, w.target) :: linked := by
              rw [List.mem_cons, not_or]
              exact ⟨hw, hnew⟩
            obtain ⟨e, he, hends⟩ := ih hu hnew'
            exact ⟨e, List.mem_cons_of_mem _ he, hends⟩

/-- An edge stands for the first use of its pair. -/
theorem find?_of_mem_dataEdgesFor {linked : List (String × String)} {us : List Use} {e : Edge}
    (h : e ∈ dataEdgesFor linked us) : ∃ u,
      us.find? (fun w => w.source = e.source ∧ w.target = e.target) = some u ∧
      e = Edge.data u.source u.target u.variableName := by
  induction us generalizing linked with
  | nil => exact absurd h List.not_mem_nil
  | cons w us ih =>
    have hskip : ∀ {linked' : List (String × String)}, (w.source, w.target) ∈ linked' →
        e ∈ dataEdgesFor linked' us →
        ¬ (w.source = e.source ∧ w.target = e.target) := by
      rintro linked' hw he ⟨hsource, htarget⟩
      obtain ⟨u, -, rfl, hnew⟩ := mem_dataEdgesFor he
      rw [hsource, htarget] at hw
      exact hnew hw
    unfold dataEdgesFor at h
    split at h
    · next hw =>
      obtain ⟨u, hu, he⟩ := ih h
      refine ⟨u, ?_, he⟩
      rw [List.find?_cons_of_neg (by simpa using hskip (List.contains_iff_mem.mp hw) h)]
      exact hu
    · rcases List.mem_cons.mp h with rfl | h
      · exact ⟨w, List.find?_cons_of_pos (by simp [Edge.data]), rfl⟩
      · obtain ⟨u, hu, he⟩ := ih h
        refine ⟨u, ?_, he⟩
        rw [List.find?_cons_of_neg (by simpa using hskip List.mem_cons_self h)]
        exact hu

/-- The first use of a pair is that of the first variable of the first node. -/
theorem firstUse_of_find? {nodes : List Node} {p c : String} {u : Use}
    (h : (nodes.flatMap (usesOf nodes)).find? (fun w => w.source = p ∧ w.target = c) = some u) :
    u.source = p ∧ u.target = c ∧ FirstUse nodes p c u.variableName := by
  obtain ⟨rfl, rfl⟩ : u.source = p ∧ u.target = c := by simpa using List.find?_some h
  rw [List.find?_flatMap] at h
  obtain ⟨before, n, after, hnodes, hn, hbefore⟩ := List.findSome?_eq_some_iff.mp h
  obtain ⟨htarget, hsupplies⟩ := mem_usesOf_iff.mp (List.mem_of_find?_eq_some hn)
  refine ⟨rfl, rfl, before, n, after, hnodes, htarget.symm, hsupplies, ?_, ?_⟩
  · intro m hm hid w hw
    have hmem : ⟨u.source, m.id, w⟩ ∈ usesOf nodes m := mem_usesOf_iff.mpr ⟨rfl, hw⟩
    have hnone := List.find?_eq_none.mp (hbefore m hm) _ hmem
    simp [hid] at hnone
  · rw [usesOf_eq, List.find?_filterMap] at hn
    obtain ⟨v, hv, huse⟩ := Option.bind_eq_some_iff.mp hn
    obtain ⟨hfirst, pre, post, hinputs, hpre⟩ := List.find?_eq_some_iff_append.mp hv
    have hvar : v ∈ n.inputs := List.mem_of_find?_eq_some hv
    obtain ⟨hu, -⟩ := (use?_eq_some hvar).mp huse
    have hname : u.variableName = v := congrArg Use.variableName hu
    refine ⟨pre, post, hname ▸ hinputs, ?_⟩
    intro w hw hlast
    have hwn : w ∈ n.inputs := by
      rw [hinputs]
      exact List.mem_append_left _ hw
    have huse' : use? nodes n w = some ⟨u.source, n.id, w⟩ :=
      (use?_eq_some hwn).mpr ⟨rfl, hsupplies.named, hsupplies.other, hwn, hlast⟩
    have hnone := hpre w hw
    simp [huse', htarget] at hnone

namespace Graph

/-- Only the data edges that are there count. -/
theorem inferDataEdges_dataEdges (g : Graph) :
    inferDataEdges g.nodes g.dataEdges = inferDataEdges g.nodes g.edges := by
  simp [inferDataEdges, dataEdges]

theorem mem_linked {g : Graph} {p c : String} :
    (p, c) ∈ (g.edges.filter (·.isData)).map (fun e => (e.source, e.target)) ↔ g.Links p c := by
  simp [Links, dataEdges]

theorem exists_mem_inferDataEdges {g : Graph} {p c : String} :
    (∃ e ∈ inferDataEdges g.nodes g.edges, e.source = p ∧ e.target = c) ↔
      ¬ g.Links p c ∧ ∃ n ∈ g.nodes, n.id = c ∧ ∃ v, Supplies g.nodes p n v := by
  rw [inferDataEdges, exists_mem_dataEdgesFor, mem_linked]
  refine and_congr_right fun _ => ?_
  constructor
  · rintro ⟨u, hu, rfl, rfl⟩
    obtain ⟨n, hn, hu⟩ := List.mem_flatMap.mp hu
    obtain ⟨htarget, hs⟩ := mem_usesOf_iff.mp hu
    exact ⟨n, hn, htarget.symm, _, hs⟩
  · rintro ⟨n, hn, rfl, v, hs⟩
    exact ⟨⟨p, n.id, v⟩, List.mem_flatMap.mpr ⟨n, hn, mem_usesOf_iff.mpr ⟨rfl, hs⟩⟩, rfl, rfl⟩

theorem links_annotate {g : Graph} {p c : String} : g.annotate.Links p c ↔
    g.Links p c ∨ ∃ n ∈ g.nodes, n.id = c ∧ ∃ v, Supplies g.nodes p n v := by
  have hsplit : g.annotate.Links p c ↔
      g.Links p c ∨ ∃ e ∈ inferDataEdges g.nodes g.edges, e.source = p ∧ e.target = c := by
    simp only [Links, dataEdges_annotate, List.mem_append, or_and_right, exists_or]
  rw [hsplit, exists_mem_inferDataEdges]
  tauto

/-- What is computed from a flow that has its data edges is nothing. -/
theorem inferDataEdges_annotate (g : Graph) :
    inferDataEdges g.annotate.nodes g.annotate.edges = [] := by
  refine dataEdgesFor_eq_nil.mpr ?_
  intro u hu
  obtain ⟨n, hn, hu⟩ := List.mem_flatMap.mp hu
  obtain ⟨htarget, hs⟩ := mem_usesOf_iff.mp hu
  exact mem_linked.mpr (links_annotate.mpr (Or.inr ⟨n, hn, htarget.symm, _, hs⟩))

theorem annotate_annotate (g : Graph) : g.annotate.annotate = g.annotate := by
  rw [annotate, inferDataEdges_annotate, List.append_nil]

/-- Computing the data edges of a flow keeps its nodes and its edges and appends new ones. A data
edge leads from one id to another if it did before, or if a node with the second id reads a variable
that a node with the first id is the last to write. No pair gets two edges, or one beside an edge
that it had, and each edge names the first variable of the first reader. The second time adds
nothing, and structural edges make no difference. -/
theorem annotate_exact (g : Graph) : g.annotate.nodes = g.nodes ∧
    (∃ added, g.annotate.edges = g.edges ++ added ∧
      (added.map fun e => (e.source, e.target)).Nodup ∧
      ∀ e ∈ added, ¬ g.Links e.source e.target ∧ ∃ v, FirstUse g.nodes e.source e.target v ∧
        e = Edge.data e.source e.target v) ∧
    (∀ p c, g.annotate.Links p c ↔ g.Links p c ∨
      ∃ n ∈ g.nodes, n.id = c ∧ p ≠ "" ∧ p ≠ c ∧ ∃ v ∈ n.inputs, LastProducer g.nodes v p) ∧
    g.annotate.annotate = g.annotate ∧
    g.annotate.structuralEdges = g.structuralEdges ∧
    ∀ h : Graph, h.nodes = g.nodes → h.dataEdges = g.dataEdges →
      h.annotate.dataEdges = g.annotate.dataEdges := by
  refine ⟨rfl, ⟨inferDataEdges g.nodes g.edges, rfl, nodup_dataEdgesFor _ _, ?_⟩, ?_,
    g.annotate_annotate, g.structuralEdges_annotate, ?_⟩
  · intro e he
    refine ⟨(exists_mem_inferDataEdges.mp ⟨e, he, rfl, rfl⟩).1, ?_⟩
    obtain ⟨u, hu, hdata⟩ := find?_of_mem_dataEdgesFor he
    obtain ⟨hsource, htarget, hfirst⟩ := firstUse_of_find? hu
    exact ⟨u.variableName, hfirst, hsource ▸ htarget ▸ hdata⟩
  · intro p c
    rw [links_annotate]
    refine or_congr_right (exists_congr fun n => and_congr_right fun _ => ?_)
    constructor
    · rintro ⟨rfl, v, hs⟩
      exact ⟨rfl, hs.named, hs.other, v, hs.input, hs.last⟩
    · rintro ⟨rfl, hnamed, hother, v, hinput, hlast⟩
      exact ⟨rfl, v, hnamed, hother, hinput, hlast⟩
  · intro h hnodes hdata
    rw [dataEdges_annotate, dataEdges_annotate, ← inferDataEdges_dataEdges,
      ← inferDataEdges_dataEdges, hnodes, hdata]

/-- Nodes that write `x` and read it, among them two with the id `b` and one that reads what it
writes last itself. -/
def exchanging : List Node :=
  [("a", [], ["x", "y"]), ("b", ["y", "x"], []), ("c", ["x", "y"], ["x"]), ("b", ["x"], ["z"])].map
    fun (id, inputs, outputs) => ⟨id, .action, "click", [], .zero, [], inputs, outputs⟩

theorem annotate_exact_exchanging :
    let g : Graph := ⟨exchanging, [Edge.data "a" "c" "y"]⟩
    let h : Graph := ⟨exchanging, [.structural "c" "b" .none, Edge.data "a" "c" "y"]⟩
    h.annotate.dataEdges = g.annotate.dataEdges ∧ g.annotate.annotate = g.annotate ∧
      g.annotate.edges.map (·.id) = ["data_a_c_y", "data_a_b_y", "data_c_b_x"] := by
  intro g h
  obtain ⟨-, -, -, htwice, -, hdata⟩ := annotate_exact g
  exact ⟨hdata h rfl rfl, htwice, by decide⟩

end Graph

end ScriptFlow
