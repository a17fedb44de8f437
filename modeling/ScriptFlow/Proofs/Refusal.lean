import ScriptFlow.Proofs.Preorder
import ScriptFlow.Proofs.Reopening

/-! When a document cannot be drawn. Nothing is refused but the digest of a note: a note that has
content is shown with its digest, which has to be a text or null. The first digest in pre-order that
is neither is the fault of the whole document, however deep its action is nested. -/

namespace ScriptFlow

section

variable {α β ε : Type}

/-- A list is refused with the fault of its first element that has one. -/
theorem mapM_eq_elim {f : α → Except ε β} {fault? : α → Option ε}
    (h : ∀ x, ∃ y, f x = (fault? x).elim (.ok y) .error) (xs : List α) :
    ∃ ys, xs.mapM f = (xs.findSome? fault?).elim (.ok ys) .error := by
  induction xs with
  | nil => exact ⟨[], rfl⟩
  | cons x xs ih =>
    obtain ⟨y, hy⟩ := h x
    obtain ⟨ys, hys⟩ := ih
    rw [List.mapM_cons, List.findSome?_cons, hy, hys]
    cases fault? x with
    | some e => exact ⟨[], rfl⟩
    | none =>
      cases xs.findSome? fault? with
      | some e => exact ⟨[], rfl⟩
      | none => exact ⟨y :: ys, rfl⟩

end

namespace Document

/-- The first fault of a note, in pre-order. -/
def noteFault? (d : Document) : Option Fault := d.preorder.findSome? (·.bind Action.noteFault?)

theorem noteFault?_eq_none {d : Document} : d.noteFault? = none ↔ d.Every Action.DigestFits := by
  rw [noteFault?, List.findSome?_eq_none_iff, every_iff_preorder]
  constructor
  · intro h a ha
    exact Action.noteFault?_eq_none.mp (h (some a) ha)
  · intro h a? ha
    cases a? with
    | none => rfl
    | some a => exact Action.noteFault?_eq_none.mpr (h a ha)

/-- The first fault of an item is that of the document. -/
theorem findSome?_items (d : Document) :
    d.outline.items.findSome? (fun i => i.numbered.2.bind Action.noteFault?) = d.noteFault? := by
  have hactions : (d.outline.items.map Item.numbered).map Prod.snd = d.preorder := by
    have hnumbered := congrArg (List.map Prod.fst) d.numbered_items_eq
    rwa [List.map_map, List.zipIdx_map_fst] at hnumbered
  rw [noteFault?, ← hactions, List.findSome?_map, List.findSome?_map]
  rfl

end Document

theorem bind_eq_elim {α β ε : Type} {x : Except ε α} {fault? : Option ε} {a : α}
    (h : x = fault?.elim (.ok a) .error) (f : α → β) :
    (x >>= fun a => .ok (f a)) = fault?.elim (.ok (f a)) .error := by
  rw [h]
  cases fault? <;> rfl

/-- What is drawn of an item, or the fault of its note. -/
theorem Item.exists_node (stem : String) (i : Item) :
    ∃ n, i.node stem = (i.numbered.2.bind Action.noteFault?).elim (.ok n) .error := by
  cases i with
  | capability k c => exact ⟨_, rfl⟩
  | action k a spot =>
    obtain ⟨shown, hshown⟩ := a.shownNote_config
    simp only [Item.node, hshown, Item.numbered, Option.bind_some]
    cases a.noteFault? with
    | none => exact ⟨_, rfl⟩
    | some e => exact ⟨⟨"", .action, "", [], .zero, [], [], []⟩, rfl⟩

namespace Document

theorem exists_draw_elim (d : Document) (stem : String) :
    ∃ g, d.draw stem = d.noteFault?.elim (.ok g) .error := by
  obtain ⟨nodes, hnodes⟩ := mapM_eq_elim (Item.exists_node stem) d.outline.items
  rw [findSome?_items] at hnodes
  exact ⟨_, bind_eq_elim hnodes fun nodes =>
    Graph.mk nodes ((d.outline.links.map (Link.edge stem)).foldl addEdge [])⟩

/-- The stem of ids does not tell whether a document is drawn. -/
theorem exists_draw_of_draw {d : Document} {stem : String} {g : Graph} (h : d.draw stem = .ok g)
    (stem' : String) : ∃ g', d.draw stem' = .ok g' := by
  obtain ⟨g₁, h₁⟩ := d.exists_draw_elim stem
  obtain ⟨g₂, h₂⟩ := d.exists_draw_elim stem'
  rw [h] at h₁
  cases hf : d.noteFault? with
  | none =>
    rw [hf] at h₂
    exact ⟨g₂, h₂⟩
  | some e =>
    rw [hf] at h₁
    cases h₁

theorem exists_load_elim (d : Document) (settings : Settings) :
    ∃ g, d.load settings = d.noteFault?.elim (.ok g) .error := by
  obtain ⟨g, hg⟩ := d.exists_draw_elim defaultStem
  exact ⟨_, bind_eq_elim hg fun g => (g.arrange settings).annotate⟩

/-- A document is drawn, loaded and opened in a session unless the digest of a note in it is neither
a text nor null. The first such digest is the fault of all three. -/
theorem refused_for_digest (d : Document) :
    (∀ stem, ∃ g, d.draw stem = d.noteFault?.elim (.ok g) .error) ∧
      (∀ settings, ∃ g, d.load settings = d.noteFault?.elim (.ok g) .error) ∧
      (∀ settings, ∃ s, Session.start d settings = d.noteFault?.elim (.ok s) .error) ∧
      (d.noteFault? = none ↔ d.Every Action.DigestFits) := by
  refine ⟨d.exists_draw_elim, d.exists_load_elim, fun settings => ?_, noteFault?_eq_none⟩
  obtain ⟨g, hg⟩ := d.exists_load_elim settings
  exact ⟨_, bind_eq_elim hg fun g => Session.mk settings d (.start g) g.digest⟩

/-- A script that is accepted, and neither drawn nor loaded nor opened: its note has the number five
as digest. -/
theorem not_drawn_lone :
    Document.ofJson (Document.lone "notify" numberedNote).toJson =
        .accepted (Document.lone "notify" numberedNote) ∧
      (∀ stem g, (Document.lone "notify" numberedNote).draw stem ≠ .ok g) ∧
      (∀ settings g, (Document.lone "notify" numberedNote).load settings ≠ .ok g) ∧
      ∀ settings s, Session.start (Document.lone "notify" numberedNote) settings ≠ .ok s := by
  have hload : ∀ settings g, (Document.lone "notify" numberedNote).load settings ≠ .ok g := by
    intro settings g h
    cases h
  refine ⟨rfl, fun stem g h => ?_, hload, fun settings s h => ?_⟩
  · cases h
  · obtain ⟨g, hg, -⟩ := bind_eq_ok.mp h
    exact hload settings g hg

end Document

end ScriptFlow
