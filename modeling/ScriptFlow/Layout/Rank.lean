import ScriptFlow.Layout.Search

/-!
The row of each member of a component: the length of the longest way to it over the kept arcs.
Members are taken in the order in which their last predecessor was taken.
-/

namespace ScriptFlow

/-- A member that waits for this many arcs. -/
structure Waiting where
  vertex : Nat
  count : Nat

/-- The state of the ranking. -/
structure Ranking where
  queue : List Nat
  waiting : List Waiting
  rank : Nat → Nat

/-- One arc into `v` has come. The answer says whether that was the last one awaited. -/
def arrive (v : Nat) : List Waiting → Bool × List Waiting
  | [] => (false, [])
  | w :: rest =>
    if w.vertex = v then
      if w.count ≤ 1 then (true, rest) else (false, ⟨v, w.count - 1⟩ :: rest)
    else ((arrive v rest).1, w :: (arrive v rest).2)

theorem length_arrive (v : Nat) (ws : List Waiting) :
    (arrive v ws).2.length + (if (arrive v ws).1 then 1 else 0) = ws.length := by
  induction ws with
  | nil => rfl
  | cons w rest ih =>
    unfold arrive
    split
    · split <;> simp
    · simp only [List.length_cons]
      omega

namespace Ranking

/-- Members that are queued or waiting. -/
def size (r : Ranking) : Nat := r.queue.length + r.waiting.length

/-- Follows the arc from `u` to `v`. -/
def follow (u : Nat) (r : Ranking) (v : Nat) : Ranking :=
  let raised := max (r.rank v) (r.rank u + 1)
  let rank := fun i => if i = v then raised else r.rank i
  match arrive v r.waiting with
  | (true, waiting) => ⟨r.queue ++ [v], waiting, rank⟩
  | (false, waiting) => ⟨r.queue, waiting, rank⟩

theorem size_follow (u : Nat) (r : Ranking) (v : Nat) : (r.follow u v).size = r.size := by
  have := length_arrive v r.waiting
  unfold follow
  split <;> next h => simp [h] at this; simp [size]; omega

theorem size_foldl_follow (u : Nat) (vs : List Nat) (r : Ranking) :
    (vs.foldl (follow u) r).size = r.size := by
  induction vs generalizing r with
  | nil => rfl
  | cons v vs ih => rw [List.foldl_cons, ih, size_follow]

/-- Takes the members of the queue one by one. -/
def run (targets : Nat → List Nat) (r : Ranking) : Ranking :=
  match _ : r.queue with
  | [] => r
  | u :: queue => run targets ((targets u).foldl (follow u) { r with queue })
termination_by r.size
decreasing_by
  rw [size_foldl_follow]
  simp [size, *]

end Ranking

namespace Component

/-- The ranking before any member is taken: those without kept arcs into them are queued in the
order in which they were found. -/
def initialRanking (c : Component) (s : Search) : Ranking :=
  let degree v := s.dag.countP (·.2 == v)
  { queue := (c.members.filter (degree · == 0)).mergeSort fun u v =>
      s.found.idxOf u ≤ s.found.idxOf v
    waiting := (c.members.eraseDups.filter (degree · != 0)).map fun v => ⟨v, degree v⟩
    rank := fun _ => 0 }

/-- The kept arcs from a vertex. -/
def keptTargets (s : Search) (u : Nat) : List Nat := (s.dag.filter (·.1 == u)).map (·.2)

/-- The members with their rows, in the order in which they were found. -/
def ranks (c : Component) (s : Search) : List (Nat × Nat) :=
  let done := (c.initialRanking s).run (keptTargets s)
  s.found.map fun v => (v, done.rank v)

end Component

end ScriptFlow
