import ScriptFlow.Proofs.Discovery

/-! The search of a component as a recursive one. A recursive search leaves trees: a vertex stands
above those that were found from it. The search on a stack finds the vertices in the order of these
trees, and the arcs that it drops are those that lead to their own source or to a vertex above it. So
whatever an arc that is kept leads to is left before its source, and no kept way leads round. -/

namespace ScriptFlow

open Relation

/-- The trees of a search: a vertex, the trees found from it and the trees found after it. -/
inductive SearchForest where
  | nil
  | tree (root : Nat) (below next : SearchForest)

/-- What stands before a member of a list that repeats nothing has the smaller index. -/
theorem idxOf_lt_of_sublist {l : List Nat} {u v : Nat} (h : [v, u].Sublist l) (hl : l.Nodup) :
    l.idxOf v < l.idxOf u := by
  induction l with
  | nil => cases h
  | cons w l ih =>
    obtain ⟨hw, hl⟩ := List.nodup_cons.mp hl
    cases h with
    | cons _ h =>
      have hv : w ≠ v := fun he => hw (he ▸ h.subset List.mem_cons_self)
      have hu : w ≠ u := fun he => hw (he ▸ h.subset (List.mem_cons_of_mem _ List.mem_cons_self))
      rw [List.idxOf_cons_ne _ hv, List.idxOf_cons_ne _ hu]
      exact Nat.succ_lt_succ (ih h hl)
    | cons_cons _ h =>
      have hu : v ≠ u := fun he => hw (he ▸ h.subset List.mem_cons_self)
      rw [List.idxOf_cons_self, List.idxOf_cons_ne _ hu]
      exact Nat.succ_pos _

namespace SearchForest

/-- The vertices in the order in which they are found. -/
def preorder : SearchForest → List Nat
  | nil => []
  | tree root below next => root :: (below.preorder ++ next.preorder)

/-- The vertices in the order in which they are left. -/
def postorder : SearchForest → List Nat
  | nil => []
  | tree root below next => below.postorder ++ root :: next.postorder

/-- The first vertex is an ancestor of the second. -/
def Above : SearchForest → Nat → Nat → Prop
  | nil, _, _ => False
  | tree root below next, a, v =>
    (a = root ∧ v ∈ below.preorder) ∨ below.Above a v ∨ next.Above a v

variable {f : SearchForest} {a v : Nat}

theorem postorder_perm (f : SearchForest) : f.postorder.Perm f.preorder := by
  induction f with
  | nil => exact List.Perm.refl _
  | tree root below next ihbelow ihnext =>
    exact List.perm_middle.trans ((ihbelow.append ihnext).cons root)

theorem Above.mem (h : f.Above a v) : a ∈ f.preorder ∧ v ∈ f.preorder := by
  induction f with
  | nil => exact h.elim
  | tree root below next ihbelow ihnext =>
    simp only [preorder, List.mem_cons, List.mem_append]
    rcases h with ⟨rfl, hv⟩ | h | h
    · exact ⟨Or.inl rfl, Or.inr (Or.inl hv)⟩
    · exact ⟨Or.inr (Or.inl (ihbelow h).1), Or.inr (Or.inl (ihbelow h).2)⟩
    · exact ⟨Or.inr (Or.inr (ihnext h).1), Or.inr (Or.inr (ihnext h).2)⟩

end SearchForest

/-- A recursive search from some vertices, with the vertices that are not found before and after. -/
inductive Grows (targets : Nat → List Nat) : List Nat → List Nat → SearchForest → List Nat → Prop
  | done (fresh : List Nat) : Grows targets fresh [] .nil fresh
  | pass {fresh vs fresh' : List Nat} {v : Nat} {f : SearchForest} : v ∉ fresh →
      Grows targets fresh vs f fresh' → Grows targets fresh (v :: vs) f fresh'
  | find {fresh vs fresh₁ fresh₂ : List Nat} {v : Nat} {below next : SearchForest} : v ∈ fresh →
      Grows targets (fresh.erase v) (targets v) below fresh₁ → Grows targets fresh₁ vs next fresh₂ →
      Grows targets fresh (v :: vs) (.tree v below next) fresh₂

namespace Grows

variable {targets : Nat → List Nat} {fresh fresh' vs : List Nat} {f : SearchForest} {u v : Nat}

/-- The vertices that are found are those that are fresh no more. -/
theorem perm (h : Grows targets fresh vs f fresh') : (f.preorder ++ fresh').Perm fresh := by
  induction h with
  | done fresh => exact List.Perm.refl _
  | pass _ _ ih => exact ih
  | @find fresh vs fresh₁ fresh₂ v below next hv _ _ ihbelow ihnext =>
    have hrest : (below.preorder ++ (next.preorder ++ fresh₂)).Perm (fresh.erase v) :=
      (ihnext.append_left below.preorder).trans ihbelow
    rw [SearchForest.preorder, List.cons_append, List.append_assoc]
    exact (hrest.cons v).trans (List.perm_cons_erase hv).symm

theorem mem_fresh (h : Grows targets fresh vs f fresh') :
    v ∈ fresh ↔ v ∈ f.preorder ∨ v ∈ fresh' := by
  rw [← h.perm.mem_iff, List.mem_append]

theorem nodup (h : Grows targets fresh vs f fresh') (hfresh : fresh.Nodup) :
    f.preorder.Nodup ∧ fresh'.Nodup ∧ ∀ v ∈ f.preorder, v ∉ fresh' := by
  obtain ⟨hf, hfresh', hdisjoint⟩ := List.nodup_append.mp (h.perm.nodup_iff.mpr hfresh)
  exact ⟨hf, hfresh', fun v hv hv' => hdisjoint v hv v hv' rfl⟩

/-- No vertex that was searched from stays fresh. -/
theorem not_mem_fresh (h : Grows targets fresh vs f fresh') (hfresh : fresh.Nodup) :
    ∀ v ∈ vs, v ∉ fresh' := by
  induction h with
  | done fresh => simp
  | pass hv h ih =>
    refine List.forall_mem_cons.mpr ⟨fun hm => hv (h.mem_fresh.mpr (Or.inr hm)), ih hfresh⟩
  | find hv hbelow hnext _ ih =>
    have hfresh₁ := (hbelow.nodup (hfresh.erase _)).2.1
    refine List.forall_mem_cons.mpr ⟨fun hm => ?_, ih hfresh₁⟩
    have hv₁ := hbelow.mem_fresh.mpr (Or.inr (hnext.mem_fresh.mpr (Or.inr hm)))
    exact hfresh.not_mem_erase hv₁

/-- A search can be made from any vertices. -/
theorem exists_grows (targets : Nat → List Nat) (fresh vs : List Nat) :
    ∃ f fresh', Grows targets fresh vs f fresh' := by
  induction hn : fresh.length using Nat.strongRecOn generalizing fresh vs with
  | ind n ih =>
    subst hn
    induction vs generalizing fresh with
    | nil => exact ⟨_, _, .done fresh⟩
    | cons v vs ihvs =>
      by_cases hv : v ∈ fresh
      · have hlength := List.length_erase_of_mem hv
        have hpos := List.length_pos_of_mem hv
        obtain ⟨below, fresh₁, hbelow⟩ := ih _ (by omega) (fresh.erase v) (targets v) rfl
        have hshrink := hbelow.perm.length_eq
        rw [List.length_append] at hshrink
        obtain ⟨next, fresh₂, hnext⟩ := ih fresh₁.length (by omega) fresh₁ vs rfl
        exact ⟨_, _, .find hv hbelow hnext⟩
      · obtain ⟨f, fresh', h⟩ := ihvs fresh ih
        exact ⟨_, _, .pass hv h⟩

/-- A target that was fresh is left before its source unless it is the source or stands above it. -/
theorem left_before (h : Grows targets fresh vs f fresh') (hfresh : fresh.Nodup)
    (hu : u ∈ f.preorder) (huv : v ∈ targets u) (hv : v ∈ fresh) :
    v = u ∨ f.Above v u ∨ [v, u].Sublist f.postorder := by
  induction h with
  | done fresh => exact absurd hu List.not_mem_nil
  | pass _ _ ih => exact ih hfresh hu hv
  | @find fresh vs fresh₁ fresh₂ r below next hr hbelow hnext ihbelow ihnext =>
    have herase := hfresh.erase r
    have hpost : ∀ {f : SearchForest} {w}, w ∈ f.preorder → [w].Sublist f.postorder :=
      fun {f _} hw => List.singleton_sublist.mpr (f.postorder_perm.mem_iff.mpr hw)
    have hcases : v = r ∨ v ∈ fresh.erase r := by
      by_cases hvr : v = r
      · exact Or.inl hvr
      · exact Or.inr ((List.mem_erase_of_ne hvr).mpr hv)
    rw [SearchForest.preorder, List.mem_cons, List.mem_append] at hu
    rcases hu with rfl | hu | hu
    · refine hcases.imp_right fun hv => Or.inr ?_
      have hfound : v ∈ below.preorder :=
        (hbelow.mem_fresh.mp hv).resolve_right (hbelow.not_mem_fresh herase v huv)
      exact (hpost hfound).append (List.singleton_sublist.mpr List.mem_cons_self)
    · rcases hcases with rfl | hv
      · exact Or.inr (Or.inl (Or.inl ⟨rfl, hu⟩))
      · rcases ihbelow herase hu hv with heq | habove | hsub
        · exact Or.inl heq
        · exact Or.inr (Or.inl (Or.inr (Or.inl habove)))
        · exact Or.inr (Or.inr (hsub.trans (List.sublist_append_left _ _)))
    · rcases hcases with rfl | hv
      · exact Or.inr (Or.inr (((hpost hu).cons_cons v).trans (List.sublist_append_right _ _)))
      · rcases hbelow.mem_fresh.mp hv with hvb | hv₁
        · exact Or.inr (Or.inr ((hpost hvb).append ((hpost hu).cons r)))
        · rcases ihnext (hbelow.nodup herase).2.1 hu hv₁ with heq | habove | hsub
          · exact Or.inl heq
          · exact Or.inr (Or.inl (Or.inr (Or.inr habove)))
          · exact Or.inr (Or.inr ((hsub.cons r).trans (List.sublist_append_right _ _)))

end Grows

/-- An arc from one of the trees that is kept while some vertices are open. -/
structure Kept (targets : Nat → List Nat) (opened : List Nat) (f : SearchForest) (a : Nat × Nat) :
    Prop where
  source : a.1 ∈ f.preorder
  target : a.2 ∈ targets a.1
  closed : a.2 ∉ opened
  down : a.2 ≠ a.1 ∧ ¬ f.Above a.2 a.1

/-- Below a vertex the vertex is open as well. -/
theorem kept_tree {targets : Nat → List Nat} {opened : List Nat} {root : Nat}
    {below next : SearchForest} (hnodup : (SearchForest.tree root below next).preorder.Nodup)
    (a : Nat × Nat) : Kept targets opened (.tree root below next) a ↔
      (a.1 = root ∧ a.2 ∈ targets root ∧ a.2 ∉ root :: opened) ∨
        Kept targets (root :: opened) below a ∨ Kept targets opened next a := by
  obtain ⟨u, v⟩ := a
  simp only [SearchForest.preorder, List.nodup_cons, List.mem_append, not_or,
    List.nodup_append] at hnodup
  obtain ⟨⟨hbelow, hnext⟩, -, -, hapart⟩ := hnodup
  have hnot : ∀ {w x : Nat} {l : List Nat}, w ∉ x :: l ↔ w ≠ x ∧ w ∉ l :=
    List.mem_cons.not.trans not_or
  constructor
  · rintro ⟨hsource, htarget, hclosed, hne, hup⟩
    simp only [SearchForest.Above, not_or] at hup
    obtain ⟨hroot, hupbelow, hupnext⟩ := hup
    rcases List.mem_cons.mp hsource with rfl | hsource
    · exact Or.inl ⟨rfl, htarget, hnot.mpr ⟨hne, hclosed⟩⟩
    · rcases List.mem_append.mp hsource with hu | hu
      · have hvroot : v ≠ root := fun hv => hroot ⟨hv, hu⟩
        exact Or.inr (Or.inl ⟨hu, htarget, hnot.mpr ⟨hvroot, hclosed⟩, hne, hupbelow⟩)
      · exact Or.inr (Or.inr ⟨hu, htarget, hclosed, hne, hupnext⟩)
  · rintro (⟨rfl, htarget, hclosed⟩ | ⟨hu, htarget, hclosed, hne, hup⟩ |
      ⟨hu, htarget, hclosed, hne, hup⟩)
    · obtain ⟨hne, hclosed⟩ := hnot.mp hclosed
      refine ⟨List.mem_cons_self, htarget, hclosed, hne, ?_⟩
      rintro (⟨-, hm⟩ | h | h)
      · exact hbelow hm
      · exact hbelow h.mem.2
      · exact hnext h.mem.2
    · obtain ⟨hvroot, hclosed⟩ := hnot.mp hclosed
      refine ⟨List.mem_cons_of_mem _ (List.mem_append_left _ hu), htarget, hclosed, hne, ?_⟩
      rintro (⟨hv, -⟩ | h | h)
      · exact hvroot hv
      · exact hup h
      · exact hapart u hu u h.mem.2 rfl
    · refine ⟨List.mem_cons_of_mem _ (List.mem_append_right _ hu), htarget, hclosed, hne, ?_⟩
      rintro (⟨-, hm⟩ | h | h)
      · exact hapart u hm u hu rfl
      · exact hapart u h.mem.2 u hu rfl
      · exact hup h

namespace Search

variable {targets : Nat → List Nat} {vs fresh' : List Nat} {rest : List (Nat × List Nat)}
  {f : SearchForest} {s : Search} {u : Nat}

/-- The arcs to some targets are the one to the first target and those to the others. -/
theorem next_target_iff {opened : List Nat} {v : Nat} (a : Nat × Nat) :
    (a.1 = u ∧ a.2 ∈ v :: vs ∧ a.2 ∉ opened) ↔
      (a = (u, v) ∧ v ∉ opened) ∨ (a.1 = u ∧ a.2 ∈ vs ∧ a.2 ∉ opened) := by
  obtain ⟨x, y⟩ := a
  simp only [List.mem_cons, Prod.mk.injEq]
  constructor
  · rintro ⟨hx, rfl | hy, hclosed⟩
    · exact Or.inl ⟨⟨hx, rfl⟩, hclosed⟩
    · exact Or.inr ⟨hx, hy, hclosed⟩
  · rintro (⟨⟨hx, rfl⟩, hclosed⟩ | ⟨hx, hy, hclosed⟩)
    · exact ⟨hx, Or.inl rfl, hclosed⟩
    · exact ⟨hx, Or.inr hy, hclosed⟩

/-- The search on a stack goes through the targets of its top vertex like the recursive one. -/
theorem explore_eq (h : Grows targets s.fresh vs f fresh') (hfresh : s.fresh.Nodup)
    (hopen : ∀ w ∈ u :: rest.map (·.1), w ∉ s.fresh) :
    ∃ s', explore targets ((u, vs) :: rest) s = explore targets rest s' ∧ s'.fresh = fresh' ∧
      s'.found = s.found ++ f.preorder ∧ ∀ a, a ∈ s'.dag ↔ a ∈ s.dag ∨
        (a.1 = u ∧ a.2 ∈ vs ∧ a.2 ∉ u :: rest.map (·.1)) ∨
          Kept targets (u :: rest.map (·.1)) f a := by
  generalize hstart : s.fresh = fresh at h
  induction h generalizing u rest s with
  | done fresh =>
    refine ⟨s, by rw [explore], hstart, by simp [SearchForest.preorder], fun a => ?_⟩
    simp only [List.not_mem_nil, false_and, and_false, false_or]
    exact ⟨Or.inl, fun h => h.resolve_right fun hk => List.not_mem_nil hk.source⟩
  | @pass fresh vs fresh' v f hv h ih =>
    subst hstart
    rw [explore]
    by_cases hup : v = u ∨ v ∈ rest.map (·.1)
    · obtain ⟨s', heq, hrest, hfound, hdag⟩ := ih hfresh hopen rfl
      have hopened : v ∈ u :: rest.map (·.1) := List.mem_cons.mpr hup
      refine ⟨s', by rw [if_pos hup, heq], hrest, hfound, fun a => ?_⟩
      simp only [hdag, next_target_iff, hopened, not_true_eq_false, and_false, false_or]
    · have hopened : v ∉ u :: rest.map (·.1) := fun hm => hup (List.mem_cons.mp hm)
      obtain ⟨s', heq, hrest, hfound, hdag⟩ :=
        ih (s := s.keep u v) (by rwa [fresh_keep]) (by rwa [fresh_keep]) (fresh_keep s u v)
      rw [found_keep] at hfound
      refine ⟨s', by rw [if_neg hup, dif_neg hv, heq], hrest, hfound, fun a => ?_⟩
      simp only [hdag, next_target_iff, mem_dag_keep, hopened, not_false_eq_true, and_true,
        or_assoc]
  | @find fresh vs fresh₁ fresh₂ v below next hv hbelow hnext ihbelow ihnext =>
    subst hstart
    have hnodup := ((Grows.find hv hbelow hnext).nodup hfresh).1
    have hopened : v ∉ u :: rest.map (·.1) := fun hm => hopen v hm hv
    have hup : ¬ (v = u ∨ v ∈ rest.map (·.1)) := fun h => hopened (List.mem_cons.mpr h)
    have hfresh' : ((s.keep u v).discover v).fresh = s.fresh.erase v := by
      rw [discover, fresh_keep]
    have hopen' : ∀ w ∈ v :: u :: rest.map (·.1), w ∉ s.fresh.erase v := by
      refine List.forall_mem_cons.mpr ⟨hfresh.not_mem_erase, fun w hw hm => ?_⟩
      exact hopen w hw (List.mem_of_mem_erase hm)
    obtain ⟨s₁, heq₁, hrest₁, hfound₁, hdag₁⟩ :=
      @ihbelow ((u, vs) :: rest) ((s.keep u v).discover v) v
        (by rw [hfresh']; exact hfresh.erase v) (by rw [hfresh']; exact hopen') hfresh'
    have hopen₁ : ∀ w ∈ u :: rest.map (·.1), w ∉ s₁.fresh := by
      intro w hw hm
      rw [hrest₁] at hm
      exact hopen' w (List.mem_cons_of_mem _ hw) (hbelow.mem_fresh.mpr (Or.inr hm))
    obtain ⟨s₂, heq₂, hrest₂, hfound₂, hdag₂⟩ :=
      @ihnext rest s₁ u
        (by rw [hrest₁]; exact (hbelow.nodup (hfresh.erase v)).2.1) hopen₁ hrest₁
    refine ⟨s₂, ?_, hrest₂, ?_, fun a => ?_⟩
    · rw [explore, if_neg hup, dif_pos hv, heq₁, heq₂]
    · rw [hfound₂, hfound₁, discover, found_keep, SearchForest.preorder]
      simp only [List.append_assoc, List.cons_append, List.nil_append]
    · have hkeep : a ∈ ((s.keep u v).discover v).dag ↔ a ∈ s.dag ∨ a = (u, v) := mem_dag_keep
      rw [hdag₂, hdag₁, hkeep, next_target_iff, kept_tree hnodup]
      simp only [List.map_cons, hopened, not_false_eq_true, and_true, or_assoc, or_left_comm]

/-- So does the search over all members. -/
theorem foldl_visit_eq (h : Grows targets s.fresh vs f fresh') (hfresh : s.fresh.Nodup) :
    (vs.foldl (visit targets) s).fresh = fresh' ∧
      (vs.foldl (visit targets) s).found = s.found ++ f.preorder ∧
        ∀ a, a ∈ (vs.foldl (visit targets) s).dag ↔ a ∈ s.dag ∨ Kept targets [] f a := by
  generalize hstart : s.fresh = fresh at h
  induction h generalizing s with
  | done fresh =>
    refine ⟨hstart, by simp [SearchForest.preorder], fun a => ?_⟩
    exact ⟨Or.inl, fun h => h.resolve_right fun hk => List.not_mem_nil hk.source⟩
  | @pass fresh vs fresh' v f hv h ih =>
    subst hstart
    rw [List.foldl_cons, visit, if_neg hv]
    exact ih hfresh rfl
  | @find fresh vs fresh₁ fresh₂ v below next hv hbelow hnext _ ih =>
    subst hstart
    have hnodup := ((Grows.find hv hbelow hnext).nodup hfresh).1
    have hopen : ∀ w ∈ [v], w ∉ s.fresh.erase v := by
      simpa using hfresh.not_mem_erase
    obtain ⟨s₁, heq₁, hrest₁, hfound₁, hdag₁⟩ :=
      @explore_eq _ _ _ [] _ (s.discover v) v hbelow (hfresh.erase v) hopen
    have hvisit : visit targets s v = s₁ := by
      rw [visit, if_pos hv, heq₁, explore]
    obtain ⟨hrest₂, hfound₂, hdag₂⟩ :=
      ih (s := s₁) (by rw [hrest₁]; exact (hbelow.nodup (hfresh.erase v)).2.1) hrest₁
    rw [List.foldl_cons, hvisit]
    refine ⟨hrest₂, ?_, fun a => ?_⟩
    · rw [hfound₂, hfound₁, discover, SearchForest.preorder]
      simp only [List.append_assoc, List.cons_append, List.nil_append]
    · have hold : a ∈ (s.discover v).dag ↔ a ∈ s.dag := Iff.rfl
      rw [hdag₂, hdag₁, hold, kept_tree hnodup, List.map_nil]
      simp only [or_assoc]

end Search

namespace Component

variable {c : Component} {f : SearchForest}

/-- A component is searched recursively from its roots and then from all members. -/
structure Searched (c : Component) (f : SearchForest) : Prop where
  grown : Grows c.targets c.members (c.roots ++ c.members) f []
  found : c.search.found = f.preorder
  dag : ∀ a, a ∈ c.search.dag ↔ a ∈ c.forward ∧ a.2 ≠ a.1 ∧ ¬ f.Above a.2 a.1

theorem Closed.exists_searched (hc : c.Closed) : ∃ f, c.Searched f := by
  obtain ⟨f, fresh', hgrown⟩ := Grows.exists_grows c.targets c.members (c.roots ++ c.members)
  have hnone : fresh' = [] := by
    refine List.eq_nil_iff_forall_not_mem.mpr fun v hv => ?_
    have hm : v ∈ c.members := hgrown.mem_fresh.mpr (Or.inr hv)
    exact hgrown.not_mem_fresh hc.distinct v (List.mem_append_right _ hm) hv
  subst hnone
  have hsearch : c.search =
      (c.roots ++ c.members).foldl (Search.visit c.targets) ⟨c.members, [], []⟩ := by
    rw [search, eraseDups_of_nodup hc.distinct]
  obtain ⟨-, hfound, hdag⟩ :=
    Search.foldl_visit_eq (s := ⟨c.members, [], []⟩) hgrown hc.distinct
  rw [← hsearch] at hfound hdag
  refine ⟨f, hgrown, hfound, fun a => ?_⟩
  rw [hdag]
  constructor
  · rintro (h | h)
    · exact absurd h List.not_mem_nil
    · exact ⟨mem_targets.mp h.target, h.down⟩
  · rintro ⟨ha, hdown⟩
    have hsource : a.1 ∈ f.preorder :=
      (hgrown.mem_fresh.mp (hc.ends a ha).1).resolve_right List.not_mem_nil
    exact Or.inr ⟨hsource, mem_targets.mpr ha, List.not_mem_nil, hdown⟩

/-- Every arc that is kept leads to a vertex that is left before its source. -/
theorem Searched.left_before (h : c.Searched f) (hc : c.Closed) {a : Nat × Nat}
    (ha : a ∈ c.search.dag) : [a.2, a.1].Sublist f.postorder := by
  obtain ⟨hforward, hne, hup⟩ := (h.dag a).mp ha
  obtain ⟨hsource, htarget⟩ := hc.ends a hforward
  have hfound : a.1 ∈ f.preorder :=
    (h.grown.mem_fresh.mp hsource).resolve_right List.not_mem_nil
  rcases h.grown.left_before hc.distinct hfound (mem_targets.mpr hforward) htarget with
    heq | habove | hsub
  · exact absurd heq hne
  · exact absurd habove hup
  · exact hsub

theorem Searched.idxOf_lt (h : c.Searched f) (hc : c.Closed) {a : Nat × Nat}
    (ha : a ∈ c.search.dag) : f.postorder.idxOf a.2 < f.postorder.idxOf a.1 := by
  refine idxOf_lt_of_sublist (h.left_before hc ha) ?_
  exact f.postorder_perm.nodup_iff.mpr (h.grown.nodup hc.distinct).1

/-- No kept way leads round. -/
theorem Searched.wellFounded (h : c.Searched f) (hc : c.Closed) :
    WellFounded fun u v => (u, v) ∈ c.search.dag := by
  refine Subrelation.wf ?_ (measure fun v => f.postorder.length - f.postorder.idxOf v).wf
  intro u v huv
  have hlt : f.postorder.idxOf v < f.postorder.idxOf u := h.idxOf_lt hc huv
  have hle : f.postorder.idxOf u ≤ f.postorder.length := List.idxOf_le_length
  change f.postorder.length - f.postorder.idxOf u < f.postorder.length - f.postorder.idxOf v
  omega

end Component

end ScriptFlow
