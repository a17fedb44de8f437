import ScriptFlow.Proofs.RoundTrip

/-! A document as one list: its actions in pre-order, those of each capability behind a place for the
entry. Numbered from one it is the list of stations and of items, so the nodes of a drawn flow stand
for its elements in this order. -/

namespace ScriptFlow

namespace Capability

/-- The entry of a capability and its actions in pre-order. -/
def preorder (c : Capability) : List (Option Action) :=
  none :: (Action.listParts c.actions).map some

theorem action?_stations (n : Nat) (c : Capability) :
    (c.stations n).map Station.action? = c.preorder := by
  rw [stations, List.map_cons, Action.action?_listStations]
  rfl

end Capability

namespace Document

variable {d : Document}

/-- All entries and actions. Nothing stands for an entry. -/
def preorder (d : Document) : List (Option Action) := d.capabilities.flatMap Capability.preorder

theorem action?_stations (d : Document) : d.stations.map Station.action? = d.preorder := by
  have hcollect : ∀ (n : Nat) (cs : List Capability),
      (collect Capability.stations n cs).map Station.action? = cs.flatMap Capability.preorder := by
    intro n cs
    induction cs generalizing n with
    | nil => rfl
    | cons c cs ih =>
      rw [collect, List.map_append, c.action?_stations, ih, List.flatMap_cons]
  exact hcollect 1 d.capabilities

theorem every_iff_preorder {P : Action → Prop} :
    d.Every P ↔ ∀ a, some a ∈ d.preorder → P a := by
  simp only [every_iff_stations, ← action?_stations, List.mem_map]
  constructor
  · rintro h a ⟨s, hs, ha⟩
    exact h s hs a ha
  · intro h s hs a ha
    exact h a ⟨s, hs, ha⟩

/-- The items are numbered in pre-order, from one. -/
theorem numbered_items_eq (d : Document) :
    (d.outline.items.map Item.numbered).map Prod.swap = d.preorder.zipIdx 1 := by
  have hstations : (d.stations.map Station.numbered).map Prod.swap =
      (d.stations.map Station.action?).zip (d.stations.map Station.number) := by
    rw [List.zip_map', List.map_map]
    rfl
  have hlength : d.stations.length = d.preorder.length := by
    rw [← action?_stations, List.length_map]
  rw [numbered_items, hstations, number_stations, action?_stations, hlength,
    List.zipIdx_eq_zip_range']

end Document

/-- The node stands for the entry of a capability, or for the action. -/
def Node.StandsFor (n : Node) : Option Action → Prop
  | none => n.kind = .entry ∧ n.actionType = Catalog.capabilityType
  | some a => n.kind = a.kind ∧ n.actionType = a.type ∧ n.config = a.config

/-- The nodes of a drawn flow stand for the entries and actions in pre-order. -/
theorem standsFor_of_draw {d : Document} {stem : String} {g : Graph} (h : d.draw stem = .ok g) :
    List.Forall₂ (fun (p : Option Action × Nat) (n : Node) =>
      n.id = nodeId stem p.2 ∧ n.StandsFor p.1) (d.preorder.zipIdx 1) g.nodes := by
  rw [← d.numbered_items_eq, List.map_map, List.forall₂_map_left_iff]
  refine (nodes_of_draw h).imp fun i n hn => ?_
  cases i with
  | capability k c =>
    cases hn
    exact ⟨rfl, rfl, rfl⟩
  | action k a spot =>
    obtain ⟨hid, hstands⟩ := drawn_of_node hn
    exact ⟨hid, hstands⟩

end ScriptFlow
