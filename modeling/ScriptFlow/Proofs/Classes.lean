import ScriptFlow.Layout.Components
import Mathlib.Data.List.Nodup
import Mathlib.Logic.Relation

/-! The classes of a topology. The root above a vertex does not change when the way to it is halved,
and joining two trees gives their vertices the earlier of the two roots. So two vertices have one
root exactly if a chain of arcs, taken in either direction, leads from one to the other. -/

namespace ScriptFlow

theorem nodup_eraseDups {α : Type} [BEq α] [LawfulBEq α] (l : List α) : l.eraseDups.Nodup := by
  cases l with
  | nil => simp
  | cons a as =>
    rw [List.eraseDups_cons, List.nodup_cons]
    exact ⟨by simp, nodup_eraseDups _⟩
termination_by l.length
decreasing_by
  have := List.length_filter_le (fun b => !b == a) as
  simp only [List.length_cons]
  omega

/-- Nothing is taken out of a list that repeats nothing. -/
theorem eraseDups_of_nodup {α : Type} [BEq α] [LawfulBEq α] {l : List α} (h : l.Nodup) :
    l.eraseDups = l := by
  induction l with
  | nil => rfl
  | cons a as ih =>
    obtain ⟨ha, has⟩ := List.nodup_cons.mp h
    have hf : as.filter (fun b => !b == a) = as := by
      refine List.filter_eq_self.mpr fun b hb => ?_
      have hne : b ≠ a := fun he => ha (he ▸ hb)
      simpa using hne
    rw [List.eraseDups_cons, hf, ih has]

namespace Forest

theorem parent_lt (f : Forest) {v : Nat} (h : f.parent v ≠ v) : f.parent v < v :=
  Nat.lt_of_le_of_ne (f.parent_le v) h

/-- The root above a vertex, in a forest that stays as it is. -/
def top (f : Forest) (v : Nat) : Nat :=
  if h : f.parent v = v then v
  else
    have := f.parent_lt h
    top f (f.parent v)
termination_by v

variable {f : Forest} {v : Nat}

theorem top_of_root (h : f.parent v = v) : f.top v = v := by
  rw [top, dif_pos h]

theorem top_parent (f : Forest) (v : Nat) : f.top (f.parent v) = f.top v := by
  by_cases h : f.parent v = v
  · rw [h]
  · conv_rhs => rw [top, dif_neg h]

theorem parent_top (f : Forest) (v : Nat) : f.parent (f.top v) = f.top v := by
  induction v using Nat.strongRecOn with
  | ind v ih =>
    by_cases h : f.parent v = v
    · rw [top_of_root h, h]
    · rw [← top_parent]
      exact ih _ (f.parent_lt h)

theorem top_top (f : Forest) (v : Nat) : f.top (f.top v) = f.top v :=
  top_of_root (f.parent_top v)

/-- What agrees with every parent and keeps the roots is the root. -/
theorem eq_top {t : Nat → Nat} (hparent : ∀ v, t (f.parent v) = t v)
    (hroot : ∀ v, f.parent v = v → t v = v) : t = f.top := by
  funext v
  induction v using Nat.strongRecOn with
  | ind v ih =>
    by_cases h : f.parent v = v
    · rw [top_of_root h, hroot v h]
    · rw [← hparent, ih _ (f.parent_lt h), top_parent]

/-- A vertex can be hung under its grandparent. -/
theorem top_setParent_grandparent (f : Forest) (v : Nat) :
    (f.setParent v (f.parent (f.parent v)) (f.grandparent_le v)).top = f.top := by
  refine (eq_top ?_ ?_).symm
  · intro w
    by_cases hw : w = v
    · simp only [setParent, hw, if_true]
      rw [top_parent, top_parent]
    · simp only [setParent, if_neg hw]
      exact f.top_parent w
  · intro w hw
    refine top_of_root ?_
    by_cases he : w = v
    · subst he
      simp only [setParent, if_true] at hw
      have := f.parent_le w
      have := f.parent_le (f.parent w)
      omega
    · simpa only [setParent, if_neg he] using hw

theorem find_spec (f : Forest) (v : Nat) : (f.find v).1 = f.top v ∧ (f.find v).2.top = f.top := by
  fun_induction find f v with
  | case1 f v h => exact ⟨(top_of_root h).symm, rfl⟩
  | case2 f v h _ ih =>
    rw [top_setParent_grandparent, top_parent, top_parent] at ih
    exact ih

theorem root_eq_top (f : Forest) (v : Nat) : f.root v = f.top v :=
  (f.find_spec v).1

/-- Hanging one root under another moves the vertices below it. -/
theorem top_setParent_root {s t : Nat} (hs : f.parent s = s) (ht : f.parent t = t) (h : s ≤ t)
    (v : Nat) : (f.setParent t s h).top v = if f.top v = t then s else f.top v := by
  refine (congrFun (eq_top (f := f.setParent t s h)
    (t := fun v => if f.top v = t then s else f.top v) ?_ ?_) v).symm
  · intro w
    by_cases hw : w = t
    · subst hw
      by_cases hst : s = w
      · simp [setParent, hst, top_of_root ht]
      · simp [setParent, top_of_root ht, top_of_root hs]
    · simp only [setParent, if_neg hw, top_parent]
  · intro w hw
    by_cases he : w = t
    · subst he
      simp only [setParent, if_true] at hw
      simp [top_of_root ht, hw]
    · simp only [setParent, if_neg he] at hw
      simp [top_of_root hw, he]

theorem parent_eq_of_top_eq (h : f.top v = v) : f.parent v = v := by
  rw [← h]
  exact f.parent_top v

/-- After an arc joined two trees their vertices have the earlier of the two roots. -/
theorem top_join (f : Forest) (a : Arc) (v : Nat) : (f.join a).top v =
    if f.top v = f.top a.source ∨ f.top v = f.top a.target
      then min (f.top a.source) (f.top a.target) else f.top v := by
  obtain ⟨hs, hf₁⟩ := f.find_spec a.source
  obtain ⟨ht, hf₂⟩ := (f.find a.source).2.find_spec a.target
  rw [hf₁] at ht hf₂
  have hroot : ∀ {w}, f.top w = w → ((f.find a.source).2.find a.target).2.parent w = w :=
    fun {w} hw => parent_eq_of_top_eq (by rw [hf₂, hw])
  have hsr := hroot (f.top_top a.source)
  have htr := hroot (f.top_top a.target)
  unfold join
  dsimp only
  split
  · next h =>
    rw [hs, ht] at h
    simp only [hs, ht]
    rw [top_setParent_root hsr htr, hf₂]
    split <;> split <;> omega
  · next h =>
    rw [hs, ht] at h
    simp only [hs, ht]
    rw [top_setParent_root htr hsr, hf₂]
    split <;> split <;> omega

end Forest

/-- A chain of arcs, taken in either direction, leads from one vertex to the other. -/
def Chained (arcs : List Arc) : Nat → Nat → Prop :=
  Relation.EqvGen fun u v => ∃ a ∈ arcs, a.source = u ∧ a.target = v

namespace Chained

variable {arcs : List Arc} {u v w : Nat}

theorem refl (arcs : List Arc) (v : Nat) : Chained arcs v v := Relation.EqvGen.refl v

theorem symm (h : Chained arcs u v) : Chained arcs v u := Relation.EqvGen.symm u v h

theorem trans (h : Chained arcs u v) (h' : Chained arcs v w) : Chained arcs u w :=
  Relation.EqvGen.trans u v w h h'

theorem of_mem {a : Arc} (h : a ∈ arcs) : Chained arcs a.source a.target :=
  .rel _ _ ⟨a, h, rfl, rfl⟩

/-- What both ends of every arc agree on is the same all along a chain. -/
theorem eq_of_ends {α : Type} {t : Nat → α} (ht : ∀ a ∈ arcs, t a.source = t a.target)
    (h : Chained arcs u v) : t u = t v := by
  induction h with
  | rel u v h =>
    obtain ⟨a, ha, rfl, rfl⟩ := h
    exact ht a ha
  | refl v => rfl
  | symm u v _ ih => exact ih.symm
  | trans u v w _ _ ih ih' => exact ih.trans ih'

end Chained

namespace Forest

/-- Joining keeps every vertex chained to its root. -/
theorem chained_join {arcs : List Arc} {f : Forest} {a : Arc} (ha : a ∈ arcs)
    (hf : ∀ v, Chained arcs v (f.top v)) (v : Nat) : Chained arcs v ((f.join a).top v) := by
  have hends : Chained arcs (f.top a.source) (f.top a.target) :=
    (hf a.source).symm.trans ((Chained.of_mem ha).trans (hf a.target))
  rw [top_join]
  split
  · next h =>
    rcases Nat.le_total (f.top a.source) (f.top a.target) with hle | hle
    · rw [Nat.min_eq_left hle]
      rcases h with h | h
      · exact h ▸ hf v
      · exact (h ▸ hf v).trans hends.symm
    · rw [Nat.min_eq_right hle]
      rcases h with h | h
      · exact (h ▸ hf v).trans hends
      · exact h ▸ hf v
  · exact hf v

theorem top_join_ends (f : Forest) (a : Arc) :
    (f.join a).top a.source = (f.join a).top a.target := by
  simp [top_join]

theorem top_join_congr {f : Forest} {u v : Nat} (h : f.top u = f.top v) (a : Arc) :
    (f.join a).top u = (f.join a).top v := by
  rw [top_join, top_join, h]

theorem top_foldl_congr {f : Forest} {u v : Nat} (h : f.top u = f.top v) (as : List Arc) :
    (as.foldl join f).top u = (as.foldl join f).top v := by
  induction as generalizing f with
  | nil => exact h
  | cons a as ih => exact ih (top_join_congr h a)

theorem top_foldl_ends (f : Forest) {as : List Arc} {a : Arc} (ha : a ∈ as) :
    (as.foldl join f).top a.source = (as.foldl join f).top a.target := by
  induction as generalizing f with
  | nil => exact absurd ha List.not_mem_nil
  | cons b bs ih =>
    rcases List.mem_cons.mp ha with rfl | ha
    · exact top_foldl_congr (f.top_join_ends a) bs
    · exact ih (f.join b) ha

theorem chained_foldl {arcs : List Arc} {f : Forest} (hf : ∀ v, Chained arcs v (f.top v))
    {as : List Arc} (has : ∀ a ∈ as, a ∈ arcs) (v : Nat) :
    Chained arcs v ((as.foldl join f).top v) := by
  induction as generalizing f with
  | nil => exact hf v
  | cons a as ih =>
    exact ih (chained_join (has a List.mem_cons_self) hf)
      fun b hb => has b (List.mem_cons_of_mem _ hb)

end Forest

/-! The vertex of a node is its index where ids are distinct. -/

theorem lastIndex?_eq_none {ids : List String} {id : String} (h : id ∉ ids) :
    lastIndex? ids id = none := by
  induction ids with
  | nil => rfl
  | cons a ids ih =>
    rw [List.mem_cons, not_or] at h
    rw [lastIndex?, ih h.2]
    exact if_neg (Ne.symm h.1)

theorem exists_lastIndex? {ids : List String} {id : String} (h : id ∈ ids) :
    ∃ v, lastIndex? ids id = some v := by
  induction ids with
  | nil => exact absurd h List.not_mem_nil
  | cons a ids ih =>
    rw [lastIndex?]
    rcases hrest : lastIndex? ids id with _ | i
    · rcases List.mem_cons.mp h with rfl | hmem
      · exact ⟨0, if_pos rfl⟩
      · obtain ⟨v, hv⟩ := ih hmem
        rw [hrest] at hv
        cases hv
    · exact ⟨i + 1, rfl⟩

theorem lastIndex?_eq_some {ids : List String} (h : ids.Nodup) {i : Nat} {id : String}
    (hi : ids[i]? = some id) : lastIndex? ids id = some i := by
  induction ids generalizing i with
  | nil => cases hi
  | cons a ids ih =>
    obtain ⟨ha, hids⟩ := List.nodup_cons.mp h
    cases i with
    | zero =>
      obtain rfl : a = id := Option.some.inj hi
      rw [lastIndex?, lastIndex?_eq_none ha]
      exact if_pos rfl
    | succ i => rw [lastIndex?, ih hids hi]

theorem filterMap_lastIndex? {ids : List String} (h : ids.Nodup) :
    ids.filterMap (lastIndex? ids) = List.range ids.length := by
  have hsuffix : ∀ before after, before ++ after = ids →
      after.filterMap (lastIndex? ids) = List.range' before.length after.length := by
    intro before after heq
    induction after generalizing before with
    | nil => rfl
    | cons a after ih =>
      have ha : lastIndex? ids a = some before.length :=
        lastIndex?_eq_some h (by rw [← heq]; simp)
      rw [List.filterMap_cons_some ha, ih (before ++ [a]) (by simpa using heq),
        List.length_append, List.length_singleton, List.length_cons, List.range'_succ]
  rw [hsuffix [] ids rfl, List.length_nil, ← List.range_eq_range']

namespace Topology

variable (t : Topology)

theorem chained_root (v : Nat) : Chained t.arcs v (t.forest.root v) := by
  rw [Forest.root_eq_top]
  refine Forest.chained_foldl (fun v => ?_) (fun a ha => ha) v
  rw [Forest.top_of_root rfl]
  exact .refl _ v

/-- Two vertices have one root exactly if they are chained. -/
theorem root_eq_iff {u v : Nat} : t.forest.root u = t.forest.root v ↔ Chained t.arcs u v := by
  constructor
  · intro h
    exact (h ▸ t.chained_root u).trans (t.chained_root v).symm
  · intro h
    refine h.eq_of_ends fun a ha => ?_
    rw [Forest.root_eq_top, Forest.root_eq_top]
    exact Forest.top_foldl_ends _ ha

/-- A class holds the vertices with one root, in node order. -/
theorem mem_classes {c : List Nat} : c ∈ t.classes ↔
    ∃ v ∈ t.order, c = t.order.filter fun w => t.forest.root w == t.forest.root v := by
  simp only [classes, List.mem_mergeSort, List.mem_map, List.mem_eraseDups, List.map_map,
    List.filter_map]
  constructor
  · intro h
    obtain ⟨r, ⟨v, hv, rfl⟩, rfl⟩ := h
    exact ⟨v, hv, by simp [Function.comp_def]⟩
  · intro h
    obtain ⟨v, hv, rfl⟩ := h
    exact ⟨_, ⟨v, hv, rfl⟩, by simp [Function.comp_def]⟩

theorem exists_class {v : Nat} (h : v ∈ t.order) : ∃ c ∈ t.classes, v ∈ c :=
  ⟨_, t.mem_classes.mpr ⟨v, h, rfl⟩, List.mem_filter.mpr ⟨h, beq_self_eq_true _⟩⟩

theorem nodup_classes : t.classes.Nodup := by
  unfold classes
  rw [(List.mergeSort_perm _ _).nodup_iff]
  refine List.Nodup.map_on ?_ (nodup_eraseDups _)
  intro r hr r' _ heq
  -- a class has a member, and its root is what the class was made for
  simp only [List.mem_eraseDups, List.map_map, List.mem_map, Function.comp_apply] at hr
  obtain ⟨v, hv, rfl⟩ := hr
  simp only [List.filter_map, List.map_map, Function.comp_def] at heq
  have hm : v ∈ (t.order.filter fun w => t.forest.root w == r').map fun w => w := by
    rw [← heq]
    simp [hv]
  have hroot : v ∈ t.order ∧ t.forest.root v = r' := by simpa using hm
  exact hroot.2

/-- The classes come in the order of their first members. -/
theorem pairwise_classes : t.classes.Pairwise fun b c => b.headD 0 ≤ c.headD 0 := by
  have htrans : ∀ a b c : List Nat, decide (a.headD 0 ≤ b.headD 0) = true →
      decide (b.headD 0 ≤ c.headD 0) = true → decide (a.headD 0 ≤ c.headD 0) = true := by
    simp only [decide_eq_true_eq]
    omega
  have htotal : ∀ a b : List Nat,
      (decide (a.headD 0 ≤ b.headD 0) || decide (b.headD 0 ≤ a.headD 0)) = true := by
    simp only [Bool.or_eq_true, decide_eq_true_eq]
    omega
  exact (List.pairwise_mergeSort htrans htotal _).imp fun hb => of_decide_eq_true hb

end Topology

end ScriptFlow
