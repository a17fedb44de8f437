import ScriptFlow.Layout.Search
import ScriptFlow.Proofs.Classes

/-! What the search of a component finds. Every member is found once, the arcs that are kept are
forward arcs of the component, and an arc is dropped only if a way leads back from its target to its
source. So nothing is dropped where no way leads round. -/

namespace ScriptFlow

open Relation

namespace Search

variable {targets : Nat → List Nat} {members : List Nat} {stack : List (Nat × List Nat)}
  {s : Search} {u v : Nat}

theorem mem_dag_keep {a : Nat × Nat} : a ∈ (s.keep u v).dag ↔ a ∈ s.dag ∨ a = (u, v) := by
  unfold keep
  split
  · next h =>
    have hm : (u, v) ∈ s.dag := by simpa using h
    constructor
    · exact Or.inl
    · rintro (h | rfl)
      · exact h
      · exact hm
  · simp

theorem nodup_dag_keep (h : s.dag.Nodup) : (s.keep u v).dag.Nodup := by
  unfold keep
  split
  · exact h
  · next hn =>
    have hm : (u, v) ∉ s.dag := by simpa using hn
    exact List.nodup_append.mpr ⟨h, by simp, by grind⟩

theorem found_keep (s : Search) (u v : Nat) : (s.keep u v).found = s.found := by
  unfold keep
  split <;> rfl

/-- A search on its way: the open vertices lie on a way down, and every arc from a vertex that was
found is kept, still to be tried, or leads back up. -/
structure Good (targets : Nat → List Nat) (members : List Nat) (stack : List (Nat × List Nat))
    (s : Search) : Prop where
  parts : (s.found ++ s.fresh).Perm members
  opened : ∀ f ∈ stack, f.1 ∈ s.found
  pending : ∀ f ∈ stack, ∀ v ∈ f.2, v ∈ targets f.1
  way : stack.Pairwise fun f below => TransGen (fun u v => v ∈ targets u) below.1 f.1
  once : s.dag.Nodup
  kept : ∀ a ∈ s.dag, a.1 ∈ s.found ∧ a.2 ∈ targets a.1
  tried : ∀ u ∈ s.found, ∀ v ∈ targets u, (u, v) ∈ s.dag ∨ (∃ f ∈ stack, f.1 = u ∧ v ∈ f.2) ∨
    ReflTransGen (fun u v => v ∈ targets u) v u

namespace Good

variable {vs : List Nat} {rest : List (Nat × List Nat)}

/-- An open vertex whose targets were all tried is closed. -/
theorem close (h : s.Good targets members ((u, []) :: rest)) : s.Good targets members rest where
  parts := h.parts
  opened f hf := h.opened f (List.mem_cons_of_mem _ hf)
  pending f hf := h.pending f (List.mem_cons_of_mem _ hf)
  way := h.way.of_cons
  once := h.once
  kept := h.kept
  tried w hw v hv := by
    refine (h.tried w hw v hv).imp_right (Or.imp_left ?_)
    rintro ⟨f, hf, rfl, hvf⟩
    rcases List.mem_cons.mp hf with rfl | hf
    · exact absurd hvf List.not_mem_nil
    · exact ⟨f, hf, rfl, hvf⟩

/-- The next target of the top vertex is passed over once its arc is kept or leads back up. -/
theorem pass (h : s.Good targets members ((u, v :: vs) :: rest))
    (hv : (u, v) ∈ s.dag ∨ ReflTransGen (fun u v => v ∈ targets u) v u) :
    s.Good targets members ((u, vs) :: rest) where
  parts := h.parts
  opened := by
    simpa using h.opened
  pending := by
    have hp := h.pending
    simp only [List.forall_mem_cons] at hp ⊢
    exact ⟨hp.1.2, hp.2⟩
  way := by
    have hw := List.pairwise_cons.mp h.way
    exact List.pairwise_cons.mpr hw
  once := h.once
  kept := h.kept
  tried w hw x hx := by
    rcases h.tried w hw x hx with hk | ⟨f, hf, rfl, hxf⟩ | hback
    · exact Or.inl hk
    · rcases List.mem_cons.mp hf with rfl | hf
      · rcases List.mem_cons.mp hxf with rfl | hxf
        · exact hv.imp_right Or.inr
        · exact Or.inr (Or.inl ⟨_, List.mem_cons_self, rfl, hxf⟩)
      · exact Or.inr (Or.inl ⟨f, List.mem_cons_of_mem _ hf, rfl, hxf⟩)
    · exact Or.inr (Or.inr hback)

/-- The arc to the next target can be kept. -/
theorem keep (h : s.Good targets members ((u, v :: vs) :: rest)) :
    (s.keep u v).Good targets members ((u, v :: vs) :: rest) where
  parts := by
    rw [found_keep, fresh_keep]
    exact h.parts
  opened := by
    rw [found_keep]
    exact h.opened
  pending := h.pending
  way := h.way
  once := nodup_dag_keep h.once
  kept a ha := by
    rw [found_keep]
    rcases mem_dag_keep.mp ha with ha | rfl
    · exact h.kept a ha
    · exact ⟨h.opened _ List.mem_cons_self,
        h.pending _ List.mem_cons_self v List.mem_cons_self⟩
  tried w hw x hx := by
    rw [found_keep] at hw
    exact (h.tried w hw x hx).imp_left fun hk => mem_dag_keep.mpr (Or.inl hk)

/-- A vertex that the top of the stack leads to, or any vertex on an empty stack, can be opened. -/
theorem discover (h : s.Good targets members stack) (hv : v ∈ s.fresh)
    (hstack : ∀ f ∈ stack, TransGen (fun u v => v ∈ targets u) f.1 v) :
    (s.discover v).Good targets members ((v, targets v) :: stack) where
  parts := by
    have hp : (v :: s.fresh.erase v).Perm s.fresh := (List.perm_cons_erase hv).symm
    simp only [Search.discover, List.append_assoc, List.singleton_append]
    exact (hp.append_left s.found).trans h.parts
  opened := by
    simp only [Search.discover, List.forall_mem_cons, List.mem_append, List.mem_singleton, or_true,
      true_and]
    exact fun f hf => Or.inl (h.opened f hf)
  pending := List.forall_mem_cons.mpr ⟨fun _ hw => hw, h.pending⟩
  way := List.pairwise_cons.mpr ⟨hstack, h.way⟩
  once := h.once
  kept a ha := by
    exact (h.kept a ha).imp_left (List.mem_append_left _)
  tried w hw x hx := by
    rcases List.mem_append.mp hw with hw | hw
    · refine (h.tried w hw x hx).imp_right (Or.imp_left ?_)
      rintro ⟨f, hf, hfx⟩
      exact ⟨f, List.mem_cons_of_mem _ hf, hfx⟩
    · obtain rfl := List.mem_singleton.mp hw
      exact Or.inr (Or.inl ⟨_, List.mem_cons_self, rfl, hx⟩)

/-- The way to the next target of the top vertex. -/
theorem transGen (h : s.Good targets members ((u, v :: vs) :: rest)) :
    ∀ f ∈ (u, vs) :: rest, TransGen (fun u v => v ∈ targets u) f.1 v := by
  have hv : v ∈ targets u := h.pending _ List.mem_cons_self v List.mem_cons_self
  refine List.forall_mem_cons.mpr ⟨.single hv, ?_⟩
  intro f hf
  exact (List.rel_of_pairwise_cons h.way hf).tail hv

/-- The arc to the next target is kept and the target passed over. -/
theorem advance (h : s.Good targets members ((u, v :: vs) :: rest)) :
    (s.keep u v).Good targets members ((u, vs) :: rest) :=
  h.keep.pass (Or.inl (mem_dag_keep.mpr (Or.inr rfl)))

/-- A target that is open leads back up. -/
theorem back (h : s.Good targets members ((u, v :: vs) :: rest))
    (hup : v = u ∨ v ∈ rest.map (·.1)) : s.Good targets members ((u, vs) :: rest) := by
  refine h.pass (Or.inr ?_)
  rcases hup with rfl | hup
  · exact .refl
  · obtain ⟨f, hf, rfl⟩ := List.mem_map.mp hup
    exact (List.rel_of_pairwise_cons h.way hf).to_reflTransGen

/-- A target that is fresh is opened. -/
theorem enter (h : s.Good targets members ((u, v :: vs) :: rest)) (hv : v ∈ s.fresh) :
    ((s.keep u v).discover v).Good targets members ((v, targets v) :: (u, vs) :: rest) :=
  h.advance.discover (by rwa [fresh_keep]) h.transGen

/-- Searching on closes every open vertex and makes no vertex fresh. -/
theorem explore (h : s.Good targets members stack) :
    (Search.explore targets stack s).Good targets members [] ∧
      (Search.explore targets stack s).fresh ⊆ s.fresh := by
  fun_induction Search.explore targets stack s with
  | case1 s => exact ⟨h, List.Subset.refl _⟩
  | case2 s u rest ih => exact ih h.close
  | case3 s u v vs rest hup ih => exact ih (h.back hup)
  | case4 s u v vs rest hup hv ih =>
    obtain ⟨hgood, hsub⟩ := ih (h.enter hv)
    refine ⟨hgood, List.Subset.trans hsub ?_⟩
    rw [Search.discover, fresh_keep]
    exact List.erase_subset
  | case5 s u v vs rest hup hv ih =>
    obtain ⟨hgood, hsub⟩ := ih h.advance
    rw [fresh_keep] at hsub
    exact ⟨hgood, hsub⟩

/-- After a visit the vertex is not fresh. -/
theorem visit (hmembers : members.Nodup) (h : s.Good targets members []) (v : Nat) :
    (Search.visit targets s v).Good targets members [] ∧
      (Search.visit targets s v).fresh ⊆ s.fresh ∧ v ∉ (Search.visit targets s v).fresh := by
  unfold Search.visit
  split
  · next hv =>
    obtain ⟨hgood, hsub⟩ := (h.discover hv (by simp)).explore
    have hnodup : s.fresh.Nodup := (h.parts.nodup_iff.mpr hmembers).of_append_right
    refine ⟨hgood, List.Subset.trans hsub List.erase_subset, ?_⟩
    intro hm
    exact hnodup.not_mem_erase (hsub hm)
  · next hv => exact ⟨h, List.Subset.refl _, hv⟩

theorem foldl_visit (hmembers : members.Nodup) (h : s.Good targets members []) (vs : List Nat) :
    (vs.foldl (Search.visit targets) s).Good targets members [] ∧
      (vs.foldl (Search.visit targets) s).fresh ⊆ s.fresh ∧
        ∀ v ∈ vs, v ∉ (vs.foldl (Search.visit targets) s).fresh := by
  induction vs generalizing s with
  | nil => exact ⟨h, List.Subset.refl _, by simp⟩
  | cons v vs ih =>
    obtain ⟨hgood, hsub, hv⟩ := h.visit hmembers v
    obtain ⟨hgood', hsub', hvs⟩ := ih hgood
    refine ⟨hgood', List.Subset.trans hsub' hsub, ?_⟩
    exact List.forall_mem_cons.mpr ⟨fun hm => hv (hsub' hm), hvs⟩

end Good

end Search

/-- What the layout hands to the search: members that are distinct and hold the ends of all arcs. -/
structure Component.Closed (c : Component) : Prop where
  distinct : c.members.Nodup
  ends : ∀ a ∈ c.forward, a.1 ∈ c.members ∧ a.2 ∈ c.members

namespace Component

variable {c : Component}

theorem mem_targets {u v : Nat} : v ∈ c.targets u ↔ (u, v) ∈ c.forward := by
  simp [targets]

/-- A search starts with every member fresh. -/
theorem good_start (targets : Nat → List Nat) (members : List Nat) :
    Search.Good targets members [] ⟨members, [], []⟩ :=
  ⟨List.Perm.refl _, by simp, by simp, .nil, by simp, by simp, by simp⟩

/-- The search finds every member once and keeps forward arcs, each once; an arc that it drops leads
back up. -/
theorem search_spec (c : Component) : c.search.found.Perm c.members.eraseDups ∧
    c.search.dag.Nodup ∧ (∀ a ∈ c.search.dag, a ∈ c.forward) ∧
      ∀ a ∈ c.forward, a.1 ∈ c.members →
        a ∈ c.search.dag ∨ ReflTransGen (fun u v => (u, v) ∈ c.forward) a.2 a.1 := by
  obtain ⟨hgood, -, hvisited⟩ :=
    (good_start c.targets _).foldl_visit (nodup_eraseDups c.members) (c.roots ++ c.members)
  have hfresh : c.search.fresh = [] := by
    refine List.eq_nil_iff_forall_not_mem.mpr fun v hv => ?_
    have hm : v ∈ c.members.eraseDups := hgood.parts.mem_iff.mp (List.mem_append_right _ hv)
    exact hvisited v (List.mem_append_right _ (List.mem_eraseDups.mp hm)) hv
  have hfound : c.search.found.Perm c.members.eraseDups := by
    have hp := hgood.parts
    change (c.search.found ++ c.search.fresh).Perm c.members.eraseDups at hp
    rwa [hfresh, List.append_nil] at hp
  refine ⟨hfound, hgood.once, ?_, ?_⟩
  · intro a ha
    exact mem_targets.mp (hgood.kept a ha).2
  · intro a ha hm
    have hfind : a.1 ∈ c.search.found := hfound.mem_iff.mpr (List.mem_eraseDups.mpr hm)
    rcases hgood.tried a.1 hfind a.2 (mem_targets.mpr ha) with hk | hp | hb
    · exact Or.inl hk
    · simp at hp
    · simp only [mem_targets] at hb
      exact Or.inr hb

theorem Closed.dag_ends (hc : c.Closed) : ∀ a ∈ c.search.dag, a.1 ∈ c.members ∧ a.2 ∈ c.members := by
  obtain ⟨-, -, hforward, -⟩ := c.search_spec
  exact fun a ha => hc.ends a (hforward a ha)

theorem mem_found {v : Nat} : v ∈ c.search.found ↔ v ∈ c.members := by
  rw [c.search_spec.1.mem_iff, List.mem_eraseDups]

theorem found_perm (h : c.members.Nodup) : c.search.found.Perm c.members :=
  eraseDups_of_nodup h ▸ c.search_spec.1

/-- Nothing is dropped where no way leads round. -/
theorem mem_dag_iff (hsource : ∀ a ∈ c.forward, a.1 ∈ c.members)
    (hacyclic : ∀ v, ¬ TransGen (fun u v => (u, v) ∈ c.forward) v v) {a : Nat × Nat} :
    a ∈ c.search.dag ↔ a ∈ c.forward := by
  obtain ⟨-, -, hsub, hkept⟩ := c.search_spec
  constructor
  · exact hsub a
  · intro ha
    refine (hkept a ha (hsource a ha)).resolve_right fun hback => ?_
    exact hacyclic a.1 (TransGen.head' ha hback)

end Component

end ScriptFlow
