import ScriptFlow.Proofs.Requests
import Mathlib.Logic.Function.Iterate

/-! The history of a session as a bounded zipper: past, present and future. The list of snapshots
with a cursor and the zipper answer every request alike, so what holds of the zipper holds of every
session that can be reached. -/

namespace ScriptFlow

/-- What was before the present, the oldest first, and what comes after it. -/
structure Zipper (α : Type) where
  past : List α
  present : α
  future : List α

namespace History

variable {α : Type}

theorem lastItems_append {n : Nat} (hn : 0 < n) (l : List α) (a : α) :
    lastItems n (l ++ [a]) = lastItems (n - 1) l ++ [a] := by
  simp only [lastItems, List.length_append, List.length_singleton]
  rw [List.drop_append_of_le_length (by omega)]
  congr 2
  omega

/-- What is dropped first would be dropped later. -/
theorem lastItems_lastItems_append (n : Nat) (l m : List α) :
    lastItems n (lastItems n l ++ m) = lastItems n (l ++ m) := by
  simp only [lastItems]
  rw [← List.drop_append_of_le_length (Nat.sub_le _ _), List.drop_drop]
  congr 1
  simp only [List.length_append, List.length_drop]
  omega

theorem lastItems_eq_self {n : Nat} {l : List α} (h : l.length ≤ n) : lastItems n l = l := by
  rw [lastItems, Nat.sub_eq_zero_of_le h, List.drop_zero]

theorem length_lastItems (n : Nat) (l : List α) : (lastItems n l).length = min n l.length := by
  rw [lastItems, List.length_drop]
  omega

theorem getElem?_reverse_lastItems {n k : Nat} (hk : k < n) (l : List α) :
    (lastItems n l).reverse[k]? = l.reverse[k]? := by
  rw [lastItems, List.reverse_drop, List.getElem?_take]
  split
  · rfl
  · rw [List.getElem?_eq_none (by rw [List.length_reverse]; omega)]

end History

namespace Zipper

variable {α : Type}

def start (a : α) : Zipper α := ⟨[], a, []⟩

/-- The present becomes the last of the past, of which one less than the limit is kept. -/
def record (limit : Nat) (z : Zipper α) (a : α) : Zipper α :=
  ⟨History.lastItems (max limit 1 - 1) (z.past ++ [z.present]), a, []⟩

def recordAny (limit : Nat) (z : Zipper α) : Option α → Zipper α
  | some a => z.record limit a
  | none => z

def undo (z : Zipper α) : Zipper α :=
  match z.past.getLast? with
  | some a => ⟨z.past.dropLast, a, z.present :: z.future⟩
  | none => z

def redo (z : Zipper α) : Zipper α :=
  match z.future with
  | a :: future => ⟨z.past ++ [z.present], a, future⟩
  | [] => z

theorem undo_concat (past : List α) (a b : α) (future : List α) :
    undo ⟨past ++ [a], b, future⟩ = ⟨past, a, b :: future⟩ := by
  simp [undo]

/-- The past and the present. -/
def trail (z : Zipper α) : List α := z.past ++ [z.present]

theorem trail_record {limit : Nat} (z : Zipper α) (a : α) :
    (z.record limit a).trail = History.lastItems (max limit 1) (z.trail ++ [a]) :=
  (History.lastItems_append (by omega) _ a).symm

theorem trail_recordAny {limit : Nat} {z : Zipper α} (hz : z.trail.length ≤ max limit 1)
    (a? : Option α) : (z.recordAny limit a?).trail =
      History.lastItems (max limit 1) (z.trail ++ a?.toList) := by
  cases a? with
  | none => simp [recordAny, History.lastItems_eq_self hz]
  | some a => exact z.trail_record a

/-- What is present after undoing is found from the end of the trail. -/
theorem present_undo_iterate {z : Zipper α} {k : Nat} (hk : k ≤ z.past.length) :
    z.trail.reverse[k]? = some (undo^[k] z).present := by
  induction k generalizing z with
  | zero => simp [trail]
  | succ k ih =>
    obtain ⟨past, present, future⟩ := z
    obtain ⟨before, a, rfl⟩ : ∃ before a, past = before ++ [a] :=
      List.eq_nil_or_concat' past |>.resolve_left (by rintro rfl; simp at hk)
    have hb : k ≤ (⟨before, a, present :: future⟩ : Zipper α).past.length := by simpa using hk
    rw [Function.iterate_succ_apply, undo_concat, ← ih hb]
    simp [trail]

end Zipper

namespace Zipper

/-- What a request makes of the zipper of a session. -/
def perform (settings : Settings) (drawn : Nat) (z : Zipper Graph) (r : Request) : Zipper Graph :=
  match r with
  | .undo => z.undo
  | .redo => z.redo
  | r => z.recordAny settings.historyLimit (r.recorded? settings drawn z.present)

def run (settings : Settings) (z : Zipper Graph) (rs : List (Nat × Request)) : Zipper Graph :=
  rs.foldl (fun z r => z.perform settings r.1 r.2) z

end Zipper

namespace History

variable {α : Type}

/-- The snapshots before the cursor, at it and after it. -/
def zipper (h : History α) : Zipper α :=
  ⟨h.snapshots.take h.cursor, h.current, h.snapshots.drop (h.cursor + 1)⟩

theorem trail_zipper (h : History α) : h.zipper.trail = h.snapshots.take (h.cursor + 1) := by
  rw [Zipper.trail, zipper, current, List.get_eq_getElem, List.take_append_getElem]

theorem zipper_record (limit : Nat) (h : History α) (a : α) :
    (h.record limit a).zipper = h.zipper.record limit a := by
  have hkept : lastItems (max limit 1) (h.extended a) =
      lastItems (max limit 1 - 1) (h.snapshots.take (h.cursor + 1)) ++ [a] :=
    lastItems_append (by omega) _ a
  have htrail := h.trail_zipper
  rw [Zipper.trail] at htrail
  rw [zipper, current_record, Zipper.record, htrail]
  simp only [record, hkept, List.length_append, List.length_singleton, Nat.add_sub_cancel,
    List.take_left, Zipper.mk.injEq, true_and]
  exact List.drop_eq_nil_of_le (by simp)

theorem zipper_recordAny (limit : Nat) (h : History α) (a? : Option α) :
    (h.recordAny limit a?).zipper = h.zipper.recordAny limit a? := by
  cases a? with
  | none => rfl
  | some a => exact h.zipper_record limit a

theorem zipper_undo (h : History α) : h.undo.zipper = h.zipper.undo := by
  obtain ⟨snapshots, cursor, hc⟩ := h
  cases cursor with
  | zero => rfl
  | succ n =>
    have hn : n < snapshots.length := by omega
    simp only [undo, zipper, current, Nat.add_sub_cancel, List.get_eq_getElem]
    rw [← List.take_append_getElem hn, Zipper.undo_concat, ← List.drop_eq_getElem_cons hc]

theorem zipper_redo (h : History α) : h.redo.zipper = h.zipper.redo := by
  obtain ⟨snapshots, cursor, hc⟩ := h
  by_cases hr : cursor + 1 < snapshots.length
  · simp only [redo, hr, dite_true, zipper, current, List.get_eq_getElem]
    rw [List.drop_eq_getElem_cons hr, Zipper.redo, List.take_append_getElem hc]
  · have hd : snapshots.drop (cursor + 1) = [] := List.drop_eq_nil_of_le (by omega)
    simp only [redo, hr, dite_false, zipper, hd, Zipper.redo]

theorem canUndo_zipper (h : History α) : h.canUndo = !h.zipper.past.isEmpty := by
  have hc := h.cursor_lt
  cases hn : h.cursor with
  | zero => simp [canUndo, zipper, hn]
  | succ n =>
    have hne : h.snapshots ≠ [] := List.ne_nil_of_length_pos (by omega)
    simp [canUndo, zipper, hn, hne]

theorem canRedo_zipper (h : History α) : h.canRedo = !h.zipper.future.isEmpty := by
  by_cases hr : h.cursor + 1 < h.snapshots.length
  · simp [canRedo, size, zipper, hr]
  · simp [canRedo, size, zipper, hr, Nat.not_lt.mp hr]

theorem size_zipper (h : History α) :
    h.size = h.zipper.past.length + 1 + h.zipper.future.length := by
  have hc := h.cursor_lt
  simp only [size, zipper, List.length_take, List.length_drop]
  omega

theorem size_recordAny {limit : Nat} {h : History α} (hs : h.size ≤ max limit 1)
    (a? : Option α) : (h.recordAny limit a?).size ≤ max limit 1 := by
  cases a? with
  | none => exact hs
  | some a =>
    rw [recordAny, size_record]
    exact Nat.min_le_left _ _

theorem size_redo (h : History α) : h.redo.size = h.size :=
  congrArg List.length h.snapshots_redo

theorem cursor_undo_iterate (h : History α) (k : Nat) : (undo^[k] h).cursor = h.cursor - k := by
  induction k with
  | zero => rfl
  | succ k ih =>
    rw [Function.iterate_succ_apply']
    exact (congrArg (· - 1) ih).trans (Nat.sub_sub _ _ _)

/-- Redoing takes back what was undone, step by step. -/
theorem redo_iterate_undo_iterate {h : History α} {k : Nat} (hk : k ≤ h.cursor) :
    redo^[k] (undo^[k] h) = h := by
  induction k with
  | zero => rfl
  | succ k ih =>
    have hu : (undo^[k] h).canUndo = true := by
      rw [canUndo, cursor_undo_iterate, decide_eq_true_iff]
      omega
    rw [Function.iterate_succ_apply, Function.iterate_succ_apply', redo_undo _ hu]
    exact ih (by omega)

theorem zipper_undo_iterate (h : History α) (k : Nat) :
    (undo^[k] h).zipper = Zipper.undo^[k] h.zipper :=
  Function.Semiconj.iterate_right zipper_undo k h

end History

namespace Request

theorem zipper_onHistory (settings : Settings) (drawn : Nat) (h : History Graph) (r : Request) :
    (r.onHistory settings drawn h).zipper = h.zipper.perform settings drawn r := by
  cases r with
  | undo => exact h.zipper_undo
  | redo => exact h.zipper_redo
  | _ => exact h.zipper_recordAny _ _

theorem size_onHistory {settings : Settings} {h : History Graph}
    (hs : h.size ≤ max settings.historyLimit 1) (drawn : Nat) (r : Request) :
    (r.onHistory settings drawn h).size ≤ max settings.historyLimit 1 := by
  cases r with
  | undo => exact hs
  | redo => exact Nat.le_trans (Nat.le_of_eq h.size_redo) hs
  | _ => exact History.size_recordAny hs _

end Request

/-- Without undoing and redoing the trail grows by what is recorded, up to the limit. -/
theorem Zipper.trail_perform {settings : Settings} {z : Zipper Graph} {drawn : Nat} {r : Request}
    (hr : r.isShift = false) (hz : z.trail.length ≤ max settings.historyLimit 1) :
    (z.perform settings drawn r).trail = History.lastItems (max settings.historyLimit 1)
      (z.trail ++ (r.recorded? settings drawn z.present).toList) := by
  cases r with
  | undo => cases hr
  | redo => cases hr
  | _ => exact trail_recordAny hz _

namespace Session

/-- What a session shows of its history is what the zipper holds. -/
structure Shows (s : Session) (z : Zipper Graph) : Prop where
  graph : s.graph = z.present
  canUndo : s.history.canUndo = !z.past.isEmpty
  canRedo : s.history.canRedo = !z.future.isEmpty
  size : s.history.size = z.past.length + 1 + z.future.length

/-- The graphs that requests record in a session, in order. -/
def recorded (s : Session) : List (Nat × Request) → List Graph
  | [] => []
  | r :: rs => (r.2.recorded? s.settings r.1 s.graph).toList ++ (s.next r.1 r.2).recorded rs

theorem zipper_run (s : Session) (rs : List (Nat × Request)) :
    (s.run rs).history.zipper = s.history.zipper.run s.settings rs := by
  induction rs generalizing s with
  | nil => rfl
  | cons r rs ih =>
    rw [run_cons, ih, settings_next, history_next, Request.zipper_onHistory]
    rfl

theorem size_run {s : Session} (h : s.history.size ≤ max s.settings.historyLimit 1)
    (rs : List (Nat × Request)) :
    (s.run rs).history.size ≤ max s.settings.historyLimit 1 := by
  induction rs generalizing s with
  | nil => exact h
  | cons r rs ih =>
    have hn := s.settings_next r.1 r.2
    rw [run_cons, ← hn]
    refine ih ?_
    rw [hn, history_next]
    exact Request.size_onHistory h r.1 r.2

theorem shows_zipper (s : Session) : s.Shows s.history.zipper :=
  ⟨rfl, s.history.canUndo_zipper, s.history.canRedo_zipper, s.history.size_zipper⟩

theorem history_undo_iterate (s : Session) (k : Nat) :
    (undo^[k] s).history = History.undo^[k] s.history := by
  have h : Function.Semiconj Session.history undo History.undo := fun _ => rfl
  exact h.iterate_right k s

theorem history_redo_iterate (s : Session) (k : Nat) :
    (redo^[k] s).history = History.redo^[k] s.history := by
  have h : Function.Semiconj Session.history redo History.redo := fun _ => rfl
  exact h.iterate_right k s

theorem length_trail_le {s : Session} (h : s.history.size ≤ max s.settings.historyLimit 1) :
    s.history.zipper.trail.length ≤ max s.settings.historyLimit 1 := by
  have hsize := s.history.size_zipper
  rw [Zipper.trail, List.length_append, List.length_singleton]
  omega

theorem trail_run {s : Session} (h : s.history.zipper.trail.length ≤ max s.settings.historyLimit 1)
    {rs : List (Nat × Request)} (hrs : ∀ r ∈ rs, r.2.isShift = false) :
    (s.run rs).history.zipper.trail = History.lastItems (max s.settings.historyLimit 1)
      (s.history.zipper.trail ++ s.recorded rs) := by
  induction rs generalizing s with
  | nil => simp [run, recorded, History.lastItems_eq_self h]
  | cons r rs ih =>
    have hset := s.settings_next r.1 r.2
    have hstep : (s.next r.1 r.2).history.zipper.trail = History.lastItems
        (max s.settings.historyLimit 1)
        (s.history.zipper.trail ++ (r.2.recorded? s.settings r.1 s.graph).toList) := by
      rw [history_next, Request.zipper_onHistory]
      exact Zipper.trail_perform (hrs r List.mem_cons_self) h
    have hlen : (s.next r.1 r.2).history.zipper.trail.length ≤
        max (s.next r.1 r.2).settings.historyLimit 1 := by
      rw [hset, hstep, History.length_lastItems]
      exact Nat.min_le_left _ _
    rw [run_cons, ih hlen fun q hq => hrs q (List.mem_cons_of_mem _ hq), hset, hstep,
      History.lastItems_lastItems_append, recorded, List.append_assoc]

/-- After undoing as often as fits, the graph is found among those that were recorded. -/
theorem graph_undo_iterate_run {s : Session}
    (h : s.history.zipper.trail.length ≤ max s.settings.historyLimit 1)
    {rs : List (Nat × Request)} (hrs : ∀ r ∈ rs, r.2.isShift = false) {k : Nat}
    (hk : k ≤ min (s.recorded rs).length (max s.settings.historyLimit 1 - 1)) :
    (s.graph :: s.recorded rs)[(s.recorded rs).length - k]? = some (undo^[k] (s.run rs)).graph := by
  have htrail := trail_run h hrs
  have hlen := congrArg List.length htrail
  simp only [Zipper.trail, History.length_lastItems, List.length_append,
    List.length_singleton] at hlen
  have hpast : k ≤ (s.run rs).history.zipper.past.length := by omega
  have hundo : (undo^[k] (s.run rs)).graph =
      (Zipper.undo^[k] (s.run rs).history.zipper).present := by
    rw [← History.zipper_undo_iterate, ← history_undo_iterate]
    rfl
  have hreverse : (s.history.zipper.trail ++ s.recorded rs).reverse =
      (s.graph :: s.recorded rs).reverse ++ s.history.zipper.past.reverse := by
    rw [← List.reverse_append, Zipper.trail, List.append_assoc]
    rfl
  rw [hundo, ← Zipper.present_undo_iterate hpast, htrail,
    History.getElem?_reverse_lastItems (by omega), hreverse, List.getElem?_append_left,
    List.getElem?_reverse]
  · rfl
  · rw [List.length_cons]
    omega
  · rw [List.length_reverse, List.length_cons]
    omega

theorem history_redo_undo_iterate {s : Session} {k : Nat} (hk : k ≤ s.history.cursor) :
    (redo^[k] (undo^[k] s)).history = s.history := by
  rw [history_redo_iterate, history_undo_iterate, History.redo_iterate_undo_iterate hk]

/-- In whatever state a run of requests leaves a session, it shows what the zipper holds; its
history is within the limit; undoing what can be undone and redoing it changes nothing; and after
further requests that record graphs, undoing leads back through them one by one. -/
theorem shows_zipper_of_start {d : Document} {settings : Settings} {s : Session}
    (h : start d settings = .ok s) : d.load settings = .ok s.graph ∧
    ∀ rs : List (Nat × Request),
      (s.run rs).Shows ((Zipper.start s.graph).run settings rs) ∧
      ((s.run rs).history.cursor < (s.run rs).history.size ∧
        (s.run rs).history.size ≤ max settings.historyLimit 1) ∧
      (∀ k ≤ (s.run rs).history.cursor,
        (redo^[k] (undo^[k] (s.run rs))).history = (s.run rs).history) ∧
      ∀ qs : List (Nat × Request), (∀ q ∈ qs, q.2.isShift = false) →
        ∀ k ≤ min ((s.run rs).recorded qs).length (max settings.historyLimit 1 - 1),
          ((s.run rs).graph :: (s.run rs).recorded qs)[((s.run rs).recorded qs).length - k]? =
            some (undo^[k] ((s.run rs).run qs)).graph := by
  obtain ⟨g, hg, h⟩ := bind_eq_ok.mp h
  cases h
  refine ⟨hg, fun rs => ?_⟩
  have hsize := size_run (s := ⟨settings, d, .start g, g.digest⟩) (Nat.le_max_right _ _) rs
  have hset := settings_run ⟨settings, d, .start g, g.digest⟩ rs
  have hshows := shows_zipper (run ⟨settings, d, .start g, g.digest⟩ rs)
  rw [zipper_run] at hshows
  refine ⟨hshows, ⟨History.cursor_lt _, hsize⟩, fun k hk => history_redo_undo_iterate hk, ?_⟩
  intro qs hqs k hk
  exact graph_undo_iterate_run (length_trail_le (by rwa [hset])) hqs (by rwa [hset])

theorem shows_zipper_of_start_sample : ∃ s, start Document.sample { historyLimit := 2 } = .ok s ∧
    s.Shows (Zipper.start s.graph) ∧
    (s.run [(0, .relayout), (0, .relayout), (0, .undo)]).history.canRedo = true ∧
    (s.run [(0, .relayout), (0, .relayout), (0, .undo)]).history.canUndo = false ∧
    (s.recorded [(0, .relayout), (0, .relayout)])[0]? =
      some (undo^[1] (s.run [(0, .relayout), (0, .relayout)])).graph := by
  obtain ⟨s, hs⟩ : ∃ s, start Document.sample { historyLimit := 2 } = .ok s := ⟨_, rfl⟩
  have hruns := (shows_zipper_of_start hs).2
  have hback := (hruns []).2.2.2 [(0, .relayout), (0, .relayout)] (by decide) 1 (Nat.le_refl 1)
  have hshows := (hruns [(0, .relayout), (0, .relayout), (0, .undo)]).1
  exact ⟨s, hs, (hruns []).1, hshows.canRedo, hshows.canUndo, hback⟩

end Session

end ScriptFlow
