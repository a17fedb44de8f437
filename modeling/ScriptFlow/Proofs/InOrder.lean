import ScriptFlow.Proofs.Addresses
import ScriptFlow.Proofs.Codec
import ScriptFlow.Proofs.Shifting

/-! The nodes of a drawn flow. They are the pieces of the document in pre-order, numbered from one,
and what a node shows of its place is told by the turns to its piece. -/

namespace ScriptFlow

/-- The ways to the pieces of a document, in pre-order. -/
structure Document.Preorder (d : Document) (places : List (List Turn)) : Prop where
  sorted : places.Pairwise Turn.Ahead
  complete : ∀ path, path ∈ places ↔ path ≠ [] ∧ ((Piece.document d).at? path).isSome

/-- The node is drawn of the action `a` of `c`. The turn `t` leads to it from the piece with the
number `around`. -/
structure Node.Draws (stem : String) (n : Node) (a : Action) (c : Capability) (t : Turn)
    (around : Nat) (inLoop : Prop) : Prop where
  kind : n.kind = a.kind
  actionType : n.actionType = a.type
  config : ∃ fs, a.toJson = .obj fs ∧
    n.config = if a.kind = .action then fs else Fields.without fs bodyKeys
  capabilityName : n.presentation.get? "capabilityName" = some (.str c.title)
  parentId : n.presentation.get? "parentId" =
    if t.slot = .actions then none else some (.str (nodeId stem around))
  branchType : n.presentation.get? "branchType" =
    if t.index = 0 then t.slot.side?.map fun side => .str side.name else none
  loopBody : (inLoop → n.presentation.get? "loopBody" = some (.bool true)) ∧
    (¬ inLoop → n.presentation.get? "loopBody" = none)

/-- The node is drawn of what stands at one of the places. -/
inductive Node.StandsAt (stem : String) (d : Document) (places : List (List Turn)) (n : Node) :
    List Turn → Prop
  | entry {path : List Turn} {c : Capability} :
      (Piece.document d).at? path = some (.capability c) → n.kind = .entry →
      n.actionType = Catalog.capabilityType → n.config = c.metadata → StandsAt stem d places n path
  | action {outer : List Turn} {t : Turn} {a : Action} {c : Capability} {j : Nat} :
      (Piece.document d).at? (outer ++ [t]) = some (.action a) →
      (Piece.document d).at? ((outer ++ [t]).take 1) = some (.capability c) →
      places[j]? = some outer →
      n.Draws stem a c t (j + 1) ((Piece.document d).InLoop (outer ++ [t])) →
      StandsAt stem d places n (outer ++ [t])

namespace Action

theorem headFields_without_bodyKeys (a : Action) : a.headFields.without bodyKeys = a.headFields := by
  have hoption {key : String} (hkey : key ∉ bodyKeys) (v : Option Json) :
      (optionalField key v).without bodyKeys = optionalField key v := by
    cases v with
    | none => rfl
    | some v => exact Fields.without_eq_self (by simpa [optionalField] using hkey)
  cases a with
  | leaf => rfl
  | branch => exact hoption (by decide) _
  | loop head =>
    cases head <;>
      exact (Fields.without_append _ _ _).trans
        (congrArg₂ _ (hoption (by decide) _) (hoption (by decide) _))

/-- A configuration is what is written of the action, without its bodies if it has some. -/
theorem config_eq_toJson (a : Action) : ∃ fs, a.toJson = .obj fs ∧
    a.config = if a.kind = .action then fs else Fields.without fs bodyKeys := by
  have htype : "type" ∉ bodyKeys := by decide
  have hwithout : Fields.without (("type", .str a.type) :: a.rest) bodyKeys =
      ("type", .str a.type) :: (a.headFields ++ a.others.without bodyKeys ++
        a.bodyFields.without bodyKeys) := by
    rw [rest, ← List.singleton_append, Fields.without_append, Fields.without_append,
      Fields.without_append, a.headFields_without_bodyKeys, Fields.without_eq_self (by simpa)]
    rfl
  refine ⟨_, a.toJson_eq, ?_⟩
  rw [hwithout]
  cases a with
  | leaf => simp [rest, headFields, others, bodyFields, config, kind, type]
  | branch => simp [headFields, others, bodyFields, config, kind, type, Fields.without, bodyKeys]
  | loop => simp [headFields, others, bodyFields, config, kind, type, Fields.without, bodyKeys]

end Action

section

variable {d : Document} {stem : String} {g : Graph}

theorem Document.getElem?_sites {s : Site} (hs : s ∈ d.sites) :
    ∃ k, d.sites[k]? = some s ∧ s.2.number = k + 1 := by
  obtain ⟨k, hk⟩ := List.getElem?_of_mem hs
  have hnumber := congrArg (·[k]?) d.number_sites
  have hlt := (List.getElem?_eq_some_iff.mp hk).1
  simp only [List.getElem?_map, hk, Option.map_some, List.getElem?_range', hlt,
    Option.some.injEq] at hnumber
  exact ⟨k, hk, by omega⟩

/-- The node of a site is drawn of what stands there. -/
theorem Document.standsAt_of_site {s : Site} (hs : s ∈ d.sites) {i : Item} {n : Node}
    (hi : s.2.item? = some i) (hn : i.node stem = .ok n) :
    n.id = nodeId stem s.2.number ∧ n.StandsAt stem d (d.sites.map Prod.fst) s.1 := by
  obtain ⟨path, k, piece, spot⟩ := s
  have hsite := List.mem_cons_of_mem ([], d.post) hs
  have hat := at?_of_site hsite
  cases piece with
  | document => cases hi
  | capability c =>
    cases hi
    cases hn
    exact ⟨rfl, .entry hat rfl rfl rfl⟩
  | action a =>
    cases hi
    obtain ⟨shown, hshown, hn⟩ := bind_eq_ok.mp hn
    cases hn
    refine ⟨rfl, ?_⟩
    obtain ⟨⟨c, hc, hname⟩, hloop⟩ := around_of_site hsite rfl
    obtain ⟨hcapability, hparent, hbranch, hbody⟩ := spot.get?_shown hshown stem a.type
    rcases List.eq_nil_or_concat' path with rfl | ⟨outer, t, rfl⟩
    · exact absurd rfl (ne_nil_of_action hsite rfl)
    obtain ⟨z, hz, hspot, hfirst⟩ := spot_of_site hsite rfl
    obtain ⟨j, hj, hnumber⟩ := getElem?_sites hz
    dsimp only at hname hloop hspot hfirst
    refine .action hat hc (j := j) ?_ ⟨rfl, rfl, a.config_eq_toJson, ?_, ?_, ?_, ?_⟩
    · rw [List.getElem?_map, hj]
      rfl
    · rw [hcapability, hname]
    · rw [hparent, hspot, hnumber]
      split <;> rfl
    · rw [hbranch, hfirst]
      split <;> rfl
    · rw [hbody, hloop, ← Piece.any_loopBody_iff hat]
      exact ⟨fun hany => if_pos hany, fun hany => if_neg hany⟩

/-- The nodes of a drawn flow are drawn of the pieces of the document in pre-order, and are numbered
from one. They and the edges are those of each capability alone with the numbers moved on. -/
theorem preorder_of_draw (h : d.draw stem = .ok g) : ∃ places, d.Preorder places ∧
    List.Forall₂ (fun (p : List Turn × Nat) n =>
      n.id = nodeId stem p.2 ∧ n.StandsAt stem d places p.1) (places.zipIdx 1) g.nodes ∧
    Assembled stem 0 d.capabilities g.nodes g.edges := by
  have hsorted := d.grove.sorted
  rw [List.map_cons, List.pairwise_cons] at hsorted
  refine ⟨d.sites.map Prod.fst, ⟨hsorted.2, fun path => Document.mem_sites_iff⟩, ?_,
    assembled_of_draw h⟩
  have hzip : (d.sites.map Prod.fst).zipIdx 1 = d.sites.map fun s => (s.1, s.2.number) := by
    rw [List.zipIdx_eq_zip_range', List.length_map, ← d.number_sites, List.zip_map']
  rw [hzip, List.forall₂_map_left_iff]
  have hnodes : List.Forall₂ (fun (s : Site) n => ∃ i, s.2.item? = some i ∧ i.node stem = .ok n)
      d.sites g.nodes := by
    have hitems : List.Forall₂ (fun (i? : Option Item) n => ∃ i, i? = some i ∧ i.node stem = .ok n)
        (d.outline.items.map some) g.nodes := by
      rw [List.forall₂_map_left_iff]
      exact (nodes_of_draw h).imp fun i n hn => ⟨i, rfl, hn⟩
    rwa [← d.item?_sites, List.forall₂_map_left_iff] at hitems
  have hmem : List.Forall₂ (fun (s : Site) n => s ∈ d.sites ∧
      ∃ i, s.2.item? = some i ∧ i.node stem = .ok n) d.sites g.nodes :=
    (List.forall₂_and_left _ _).mpr ⟨fun _ hs => hs, hnodes⟩
  refine hmem.imp ?_
  rintro s n ⟨hs, i, hi, hn⟩
  exact Document.standsAt_of_site hs hi hn

/-- A loop around an `if`, and a second capability without actions. -/
def Document.nested : Document :=
  ⟨⟨some "first", none, none, none, [],
    [.loop (.whileLoop (some (.str "more")) none) []
      [.branch (some (.str "ok")) [] [.leaf "click" []] [], .leaf "wait" []]]⟩ ::
    [⟨some "second", none, none, none, [], []⟩], []⟩

theorem preorder_of_draw_nested : ∃ g places, Document.nested.draw "p_1" = .ok g ∧
    Document.nested.Preorder places ∧
    List.Forall₂ (fun (p : List Turn × Nat) n =>
      n.id = nodeId "p_1" p.2 ∧ n.StandsAt "p_1" Document.nested places p.1) (places.zipIdx 1)
        g.nodes ∧
    Assembled "p_1" 0 Document.nested.capabilities g.nodes g.edges := by
  obtain ⟨g, hg⟩ : ∃ g, Document.nested.draw "p_1" = .ok g := ⟨_, rfl⟩
  obtain ⟨places, hplaces, hnodes, hparts⟩ := preorder_of_draw hg
  exact ⟨g, places, hg, hplaces, hnodes, hparts⟩

example : Document.nested.sites.map Prod.fst =
    let loop : List Turn := [⟨.capabilities, 0⟩, ⟨.actions, 0⟩]
    [[⟨.capabilities, 0⟩], loop, loop ++ [⟨.loopBody, 0⟩],
      loop ++ [⟨.loopBody, 0⟩, ⟨.thenBody, 0⟩], loop ++ [⟨.loopBody, 1⟩], [⟨.capabilities, 1⟩]] := by
  decide

end

end ScriptFlow
