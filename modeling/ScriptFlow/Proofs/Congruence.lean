import ScriptFlow.Proofs.Matching
import ScriptFlow.Proofs.Saved

/-! What reading a flow back depends on: of a node its id, its kind, its type and what it saves, of
the edges the first one from each node with each tag that a walk follows there. Flows that agree in
these are read back to the same capabilities, or fail both with one fault. -/

namespace ScriptFlow

theorem mapM_eq_mapM {ε α β γ : Type} {f : α → Except ε γ} {f' : β → Except ε γ} {xs : List α}
    {ys : List β} (h : List.Forall₂ (fun x y => f x = f' y) xs ys) : xs.mapM f = ys.mapM f' := by
  induction h with
  | nil => rfl
  | cons hxy _ ih => rw [List.mapM_cons, List.mapM_cons, hxy, ih]

/-- Nothing that is read back of two nodes tells them apart. -/
structure Node.SavedAlike (n m : Node) : Prop where
  id : n.id = m.id
  kind : n.kind = m.kind
  actionType : n.actionType = m.actionType
  config : n.kind ≠ .entry → n.savedConfig = m.savedConfig
  fields : n.kind = .entry → Graph.capabilityFields n = Graph.capabilityFields m

namespace Node.SavedAlike

variable {n m : Node}

theorem isEntry (h : n.SavedAlike m) : n.isEntry = m.isEntry := by
  rw [Node.isEntry, Node.isEntry, h.kind]

theorem leaf (h : n.SavedAlike m) (hkind : n.kind ≠ .entry) : n.leaf = m.leaf := by
  rw [Node.leaf, Node.leaf, h.config hkind]

theorem branch (h : n.SavedAlike m) (hkind : n.kind ≠ .entry) (ts es : List Action) :
    n.branch ts es = m.branch ts es := by
  rw [Node.branch, Node.branch, h.config hkind]

theorem loop (h : n.SavedAlike m) (hkind : n.kind ≠ .entry) (bs : List Action) :
    n.loop bs = m.loop bs := by
  rw [Node.loop, Node.loop, h.config hkind, h.actionType]

end Node.SavedAlike

namespace Visit

mutual
/-- Visits of one shape that meet nodes that are read back alike are read back alike. -/
theorem toAction_eq {v w : Visit} : v.Matches Node.SavedAlike w → v.toAction = w.toAction
  | .plain hkind _ h => h.leaf (by simp [hkind])
  | .fork hkind _ h hthen helse => by
    simp only [toAction, listToActions_eq hthen, listToActions_eq helse, h.branch (by simp [hkind])]
  | .loop hkind _ h hbody => by
    simp only [toAction, listToActions_eq hbody, h.loop (by simp [hkind])]

theorem listToActions_eq {vs ws : List Visit} : ListMatches Node.SavedAlike vs ws →
    listToActions vs = listToActions ws
  | .nil => rfl
  | .cons h hs => by simp only [listToActions, toAction_eq h, listToActions_eq hs]
end

end Visit

/-- Two graphs of like nodes, whose walks go the same ways. -/
structure Graph.ReadAlike (g g' : Graph) : Prop where
  nodes : List.Forall₂ Node.SavedAlike g.nodes g'.nodes
  target? : ∀ n ∈ g.nodes, ∀ b ∈ n.kind.ways, g.target? n.id b = g'.target? n.id b

/-- Two graphs that are read back alike. -/
structure Graph.SavedAlike (g g' : Graph) : Prop where
  nodes : List.Forall₂ Node.SavedAlike g.nodes g'.nodes
  target? : ∀ id b, g.target? id b = g'.target? id b

namespace Graph.ReadAlike

variable {g g' : Graph}

/-- The walks meet nodes that are read back alike. -/
theorem listToActions_walk (h : g.ReadAlike g') (stop visited : List String)
    (start : Option String) : Visit.listToActions (g.walk stop visited start) =
      Visit.listToActions (g'.walk stop visited start) :=
  Visit.listToActions_eq
    (walk_matches h.nodes (fun _ _ hnm => ⟨hnm.id, hnm.kind⟩) h.target? stop visited start)

theorem capability_eq (h : g.ReadAlike g') {n m : Node} (hmem : n ∈ g.entries)
    (hnm : n.SavedAlike m) : g.capability n = g'.capability m := by
  obtain ⟨hn, hentry⟩ := List.mem_filter.mp hmem
  have hkind : n.kind = .entry := beq_iff_eq.mp hentry
  have htarget := h.target? n hn .none (by simp [hkind, NodeKind.ways])
  rw [Graph.capability, Graph.capability, Graph.walkFrom, Graph.walkFrom, ← hnm.id, htarget,
    h.listToActions_walk, hnm.fields hkind]

/-- Graphs that are read back alike have the same capabilities, or the same fault. -/
theorem capabilities_eq (h : g.ReadAlike g') : g.capabilities = g'.capabilities := by
  have hentries : List.Forall₂ Node.SavedAlike g.entries g'.entries :=
    List.rel_filter (fun _ _ hnm => Bool.eq_iff_iff.mp hnm.isEntry) h.nodes
  refine mapM_eq_mapM (List.Forall₂.imp ?_ ((List.forall₂_and_left _ _).mpr
    ⟨fun n hn => hn, hentries⟩))
  intro n m hnm
  exact h.capability_eq hnm.1 hnm.2

theorem rebuildWith_eq (h : g.ReadAlike g') (extra : Fields) :
    g.rebuildWith extra = g'.rebuildWith extra := by
  rw [Graph.rebuildWith, Graph.rebuildWith, h.capabilities_eq]

theorem rebuild_eq (h : g.ReadAlike g') (base : Json) : g.rebuild base = g'.rebuild base := by
  rw [Graph.rebuild, Graph.rebuild, h.capabilities_eq]

end Graph.ReadAlike

namespace Graph.SavedAlike

variable {g g' : Graph}

theorem readAlike (h : g.SavedAlike g') : g.ReadAlike g' :=
  ⟨h.nodes, fun n _ b _ => h.target? n.id b⟩

theorem capabilities_eq (h : g.SavedAlike g') : g.capabilities = g'.capabilities :=
  h.readAlike.capabilities_eq

theorem rebuildWith_eq (h : g.SavedAlike g') (extra : Fields) :
    g.rebuildWith extra = g'.rebuildWith extra :=
  h.readAlike.rebuildWith_eq extra

theorem rebuild_eq (h : g.SavedAlike g') (base : Json) : g.rebuild base = g'.rebuild base :=
  h.readAlike.rebuild_eq base

end Graph.SavedAlike

end ScriptFlow
