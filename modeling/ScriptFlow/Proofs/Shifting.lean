import ScriptFlow.Proofs.RoundTrip

/-! Numbering a capability from further on. Its items and its links are the same with every number
moved on, so the part of a flow that a capability contributes is its own flow with the numbers in the
ids moved on by the count of the nodes before. -/

namespace ScriptFlow

def Spot.shift (m : Nat) (spot : Spot) : Spot := { spot with parent := spot.parent.map (· + m) }

def Item.shift (m : Nat) : Item → Item
  | capability n c => capability (n + m) c
  | action n a spot => action (n + m) a (spot.shift m)

def Link.shift (m : Nat) (l : Link) : Link := ⟨l.source + m, l.target + m, l.branch⟩

namespace Action

mutual
theorem items_shift (m n : Nat) (spot : Spot) : (a : Action) →
    a.items (n + m) (spot.shift m) = (a.items n spot).map (Item.shift m)
  | leaf .. => rfl
  | branch _ _ thenBody elseBody => by
    simp only [items, List.map_cons, List.map_append, ← listItems_shift]
    rw [Nat.add_right_comm n m 1, Nat.add_right_comm (n + 1) m]
    rfl
  | loop _ _ body => by
    simp only [items, List.map_cons, ← listItems_shift]
    rw [Nat.add_right_comm n m 1]
    rfl

theorem listItems_shift (m n : Nat) (spot : Spot) : (as : List Action) →
    listItems (n + m) (spot.shift m) as = (listItems n spot as).map (Item.shift m)
  | [] => rfl
  | a :: as => by
    simp only [listItems, List.map_append, ← items_shift, ← listItems_shift]
    rw [Nat.add_right_comm n m]
    rfl
end

mutual
theorem exits_shift (m n : Nat) : (a : Action) →
    a.exits (n + m) = (a.exits n).map (· + m)
  | leaf .. => rfl
  | branch _ _ thenBody elseBody => by
    have ht := listExits_shift m [n] (n + 1) thenBody
    have he := listExits_shift m [n] (n + 1 + listSize thenBody) elseBody
    rw [Nat.add_right_comm n 1 m] at ht
    rw [Nat.add_right_comm (n + 1) _ m, Nat.add_right_comm n 1 m] at he
    simp only [exits, List.map_cons, List.map_nil] at ht he ⊢
    split
    · rfl
    · rw [ht, he, List.map_append]
  | loop .. => rfl

theorem listExits_shift (m : Nat) (fringe : List Nat) (n : Nat) : (as : List Action) →
    listExits (fringe.map (· + m)) (n + m) as = (listExits fringe n as).map (· + m)
  | [] => rfl
  | a :: as => by
    simp only [listExits, ← listExits_shift, ← exits_shift]
    rw [Nat.add_right_comm n m]
end

theorem entryLink_shift (m n first : Nat) (tag : Branch) (body : List Action) :
    entryLink (n + m) tag (first + m) body = (entryLink n tag first body).map (Link.shift m) := by
  unfold entryLink
  split <;> rfl

mutual
theorem links_shift (m n : Nat) : (a : Action) →
    a.links (n + m) = (a.links n).map (Link.shift m)
  | leaf .. => rfl
  | branch _ _ thenBody elseBody => by
    have ht := listLinks_shift m [] (n + 1) thenBody
    have he := listLinks_shift m [] (n + 1 + listSize thenBody) elseBody
    simp only [links, List.map_append, ← ht, ← he, ← entryLink_shift, List.map_nil]
    rw [Nat.add_right_comm n m 1, Nat.add_right_comm (n + 1) m]
  | loop _ _ body => by
    have hb := listLinks_shift m [] (n + 1) body
    have hx := listExits_shift m [] (n + 1) body
    simp only [links, List.map_append, ← hb, ← entryLink_shift, List.map_nil, List.map_map]
      at hx ⊢
    rw [Nat.add_right_comm n m 1, hx, List.map_map]
    rfl

theorem listLinks_shift (m : Nat) (fringe : List Nat) (n : Nat) : (as : List Action) →
    listLinks (fringe.map (· + m)) (n + m) as = (listLinks fringe n as).map (Link.shift m)
  | [] => rfl
  | a :: as => by
    simp only [listLinks, List.map_append, ← links_shift, ← listLinks_shift, ← exits_shift,
      List.map_map]
    rw [Nat.add_right_comm n m]
    rfl
end

end Action

namespace Capability

theorem items_shift (m n : Nat) (c : Capability) :
    c.items (n + m) = (c.items n).map (Item.shift m) := by
  rw [items, items, List.map_cons, ← Action.listItems_shift, Nat.add_right_comm n 1 m]
  rfl

theorem links_shift (m n : Nat) (c : Capability) :
    c.links (n + m) = (c.links n).map (Link.shift m) := by
  rw [links, links, ← Action.listLinks_shift, Nat.add_right_comm n 1 m]
  rfl

theorem length_items (n : Nat) (c : Capability) : (c.items n).length = c.size := by
  have hlength := congrArg List.length (c.number_stations n)
  rw [List.length_map, List.length_range'] at hlength
  rw [← List.length_map Item.numbered, c.numbered_items, List.length_map, hlength]

end Capability

/-- The node is the other one with the number of its own, and of the one around it, moved on. -/
def Node.ShiftedBy (stem : String) (m : Nat) (n n' : Node) : Prop :=
  ∃ (k : Nat) (parent? : Option Nat), n.id = nodeId stem k ∧
    n.presentation.get? "parentId" = parent?.map (fun j => .str (nodeId stem j)) ∧
    n' = { n with
      id := nodeId stem (k + m)
      presentation := match parent? with
        | none => n.presentation
        | some j => n.presentation.set "parentId" (.str (nodeId stem (j + m))) }

/-- The edge is the other one with the numbers of its ends moved on. -/
def Edge.ShiftedBy (stem : String) (m : Nat) (e e' : Edge) : Prop :=
  ∃ s t, e = .structural (nodeId stem s) (nodeId stem t) e.branch ∧
    e' = .structural (nodeId stem (s + m)) (nodeId stem (t + m)) e.branch

/-- The flow of these capabilities behind `m` nodes: that of each alone with the numbers moved on by
the count of the nodes before. -/
inductive Assembled (stem : String) : Nat → List Capability → List Node → List Edge → Prop
  | nil (m : Nat) : Assembled stem m [] [] []
  | cons {m : Nat} {c : Capability} {cs : List Capability} {alone : Graph} {nodes nodes' : List Node}
      {edges edges' : List Edge} : c.draw stem = .ok alone →
      List.Forall₂ (Node.ShiftedBy stem m) alone.nodes nodes →
      List.Forall₂ (Edge.ShiftedBy stem m) alone.edges edges →
      Assembled stem (m + nodes.length) cs nodes' edges' →
      Assembled stem m (c :: cs) (nodes ++ nodes') (edges ++ edges')

section

variable {stem : String} {m : Nat}

theorem Link.shiftedBy_edge (l : Link) : Edge.ShiftedBy stem m (l.edge stem) ((l.shift m).edge stem) :=
  ⟨l.source, l.target, rfl, rfl⟩

theorem Spot.presentation_shift (spot : Spot) (type : String) (config shown : Fields) :
    (spot.shift m).presentation stem type config ++ shown =
      match spot.parent with
      | none => spot.presentation stem type config ++ shown
      | some j => (spot.presentation stem type config ++ shown).set "parentId"
          (.str (nodeId stem (j + m))) := by
  unfold Spot.presentation Spot.shift
  cases spot.parent <;> simp [optionalField, Fields.set]

/-- The place of a node is shown under keys that its note has not. -/
theorem Spot.get?_shown {config shown : Fields} (h : shownNote config = .ok shown) (spot : Spot)
    (stem type : String) :
    let fs := spot.presentation stem type config ++ shown
    fs.get? "capabilityName" = some (.str spot.capability) ∧
      fs.get? "parentId" = spot.parent.map (fun n => .str (nodeId stem n)) ∧
      fs.get? "branchType" = spot.firstOf.map (fun side => .str side.name) ∧
      fs.get? "loopBody" = if spot.inLoop then some (.bool true) else none := by
  have hshown : ∀ key ≠ "note", Fields.get? shown key = none := by
    intro key hkey
    rcases shownNote_eq_ok.mp h with ⟨-, rfl⟩ | ⟨n, -, rfl⟩
    · rfl
    · rw [Fields.get?_cons, if_neg hkey]
      rfl
  simp only [presentation, Fields.get?_append, Fields.get?_optionalField]
  cases spot.inLoop <;> simp [Fields.get?_cons, Fields.get?_nil, hshown]

/-- An item that is numbered from further on is drawn if it is drawn alone. -/
theorem Item.exists_shiftedBy {i : Item} {n' : Node} (h : (i.shift m).node stem = .ok n') :
    ∃ n, i.node stem = .ok n ∧ n.ShiftedBy stem m n' := by
  cases i with
  | capability k c =>
    cases h
    exact ⟨_, rfl, k, none, rfl, rfl, rfl⟩
  | action k a spot =>
    obtain ⟨shown, hshown, h⟩ := bind_eq_ok.mp h
    cases h
    refine ⟨_, bind_eq_ok.mpr ⟨shown, hshown, rfl⟩, k, spot.parent, rfl, ?_, ?_⟩
    · exact (spot.get?_shown hshown stem a.type).2.1
    · dsimp only
      rw [spot.presentation_shift]

/-- Each capability alone is drawn if all of them are. -/
theorem exists_draw_shiftedBy {c : Capability} {nodes : List Node}
    (h : List.Forall₂ (fun i n => Item.node stem i = .ok n) (c.items (1 + m)) nodes) :
    ∃ alone, c.draw stem = .ok alone ∧ List.Forall₂ (Node.ShiftedBy stem m) alone.nodes nodes ∧
      List.Forall₂ (Edge.ShiftedBy stem m) alone.edges ((c.links (1 + m)).map (Link.edge stem)) := by
  rw [c.items_shift, List.forall₂_map_left_iff] at h
  obtain ⟨ns, hns, hshifted⟩ := exists_forall₂_of_forall₂ h fun i _ n' hn' =>
    Item.exists_shiftedBy hn'
  refine ⟨⟨ns, (c.links 1).map (Link.edge stem)⟩, ?_, ?_, ?_⟩
  · rw [c.draw_eq, draw_eq_ok]
    simpa [Document.outline, Document.collect] using hns
  · exact hshifted.flip
  · rw [c.links_shift, List.map_map, List.forall₂_map_left_iff, List.forall₂_map_right_iff,
      List.forall₂_same]
    exact fun l _ => l.shiftedBy_edge

theorem exists_append_of_forall₂ {α β : Type} {R : α → β → Prop} {xs ys : List α} {zs : List β}
    (h : List.Forall₂ R (xs ++ ys) zs) :
    ∃ us vs, zs = us ++ vs ∧ List.Forall₂ R xs us ∧ List.Forall₂ R ys vs := by
  induction xs generalizing zs with
  | nil => exact ⟨[], zs, rfl, .nil, h⟩
  | cons x xs ih =>
    cases h with
    | cons hx h =>
      obtain ⟨us, vs, rfl, hus, hvs⟩ := ih h
      exact ⟨_ :: us, vs, rfl, .cons hx hus, hvs⟩

theorem assembled_of_collect {cs : List Capability} {nodes : List Node}
    (h : List.Forall₂ (fun i n => Item.node stem i = .ok n)
      (Document.collect Capability.items (1 + m) cs) nodes) :
    Assembled stem m cs nodes
      ((Document.collect Capability.links (1 + m) cs).map (Link.edge stem)) := by
  induction cs generalizing m nodes with
  | nil =>
    cases h
    exact .nil m
  | cons c cs ih =>
    obtain ⟨us, vs, rfl, hus, hvs⟩ := exists_append_of_forall₂ h
    obtain ⟨alone, halone, hnodes, hedges⟩ := exists_draw_shiftedBy hus
    have hlength : us.length = c.size := by rw [← hus.length_eq, c.length_items]
    rw [Document.collect, List.map_append]
    refine .cons halone hnodes hedges ?_
    rw [hlength, Nat.add_assoc]
    rw [Nat.add_assoc] at hvs
    exact ih hvs

/-- The nodes and the edges of a drawn flow are those of each capability alone, one after the other
with the numbers moved on. -/
theorem assembled_of_draw {d : Document} {g : Graph} (h : d.draw stem = .ok g) :
    Assembled stem 0 d.capabilities g.nodes g.edges := by
  rw [edges_of_draw h]
  exact assembled_of_collect (m := 0) (nodes_of_draw h)

end

end ScriptFlow
