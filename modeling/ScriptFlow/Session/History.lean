/-!
A history of snapshots with a cursor. Recording drops what lies after the cursor and keeps the last
snapshots up to a limit.
-/

namespace ScriptFlow

structure History (α : Type) where
  snapshots : List α
  cursor : Nat
  cursor_lt : cursor < snapshots.length

namespace History

variable {α : Type}

def start (a : α) : History α := ⟨[a], 0, by simp⟩

def current (h : History α) : α := h.snapshots.get ⟨h.cursor, h.cursor_lt⟩

def size (h : History α) : Nat := h.snapshots.length

def canUndo (h : History α) : Bool := 0 < h.cursor

def canRedo (h : History α) : Bool := h.cursor + 1 < h.size

/-- The last `n` items. -/
def lastItems (n : Nat) (l : List α) : List α := l.drop (l.length - n)

/-- The snapshots up to the cursor, and the new one. -/
def extended (h : History α) (a : α) : List α := h.snapshots.take (h.cursor + 1) ++ [a]

theorem extended_length_pos (h : History α) (a : α) : 0 < (h.extended a).length := by
  simp [extended]

/-- Records a snapshot after the current one. At least one snapshot is kept. -/
def record (limit : Nat) (h : History α) (a : α) : History α :=
  let kept := lastItems (max limit 1) (h.extended a)
  ⟨kept, kept.length - 1, by
    have := h.extended_length_pos a
    simp only [kept, lastItems, List.length_drop]
    omega⟩

def undo (h : History α) : History α :=
  ⟨h.snapshots, h.cursor - 1, Nat.lt_of_le_of_lt (Nat.sub_le _ _) h.cursor_lt⟩

def redo (h : History α) : History α :=
  if hc : h.cursor + 1 < h.snapshots.length then ⟨h.snapshots, h.cursor + 1, hc⟩ else h

theorem length_extended (h : History α) (a : α) : (h.extended a).length = h.cursor + 2 := by
  have := h.cursor_lt
  simp only [extended, List.length_append, List.length_take, List.length_singleton]
  omega

theorem size_record (limit : Nat) (h : History α) (a : α) :
    (h.record limit a).size = min (max limit 1) (h.cursor + 2) := by
  simp only [size, record, lastItems, List.length_drop, length_extended]
  omega

theorem current_record (limit : Nat) (h : History α) (a : α) :
    (h.record limit a).current = a := by
  have hc := h.cursor_lt
  have hl := h.length_extended a
  simp only [current, record, lastItems, List.get_eq_getElem, List.getElem_drop,
    List.length_drop, hl]
  have hi : h.cursor + 2 - max limit 1 + (h.cursor + 2 - (h.cursor + 2 - max limit 1) - 1) =
      (h.snapshots.take (h.cursor + 1)).length := by
    rw [List.length_take]
    omega
  simp only [extended, hi, List.getElem_concat_length]

/-- Redoing takes back what undoing did. -/
theorem redo_undo (h : History α) (hu : h.canUndo = true) : h.undo.redo = h := by
  have hpos : 0 < h.cursor := of_decide_eq_true hu
  obtain ⟨snapshots, cursor, hc⟩ := h
  dsimp only at hpos
  have he : cursor - 1 + 1 = cursor := by omega
  simp only [undo, redo, he, hc, dite_true]

end History

end ScriptFlow
