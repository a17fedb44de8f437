import ScriptFlow.Script.Drawing
import Mathlib.Data.List.Basic

/-! The ids of a drawn flow. A number is read back from its node id. The id of an edge can be read in
two ways only where one node id goes on behind another one, or behind the name of a tag; the ids of
numbered nodes never do, whatever the stem holds. -/

namespace ScriptFlow

theorem toDigits_inj {m n : Nat} (h : Nat.toDigits 10 m = Nat.toDigits 10 n) : m = n := by
  have hd := congrArg (fun ds => Nat.ofDigitChars 10 ds 0) h
  simpa using hd

theorem toList_nodeId (stem : String) (n : Nat) :
    (nodeId stem n).toList = stem.toList ++ '_' :: Nat.toDigits 10 n := by
  simp [nodeId, String.toList_append]

theorem nodeId_inj {stem : String} {m n : Nat} : nodeId stem m = nodeId stem n ↔ m = n := by
  constructor
  · intro h
    have hl := congrArg String.toList h
    rw [toList_nodeId, toList_nodeId] at hl
    exact toDigits_inj (List.cons.inj (List.append_cancel_left hl)).2
  · rintro rfl
    rfl

theorem nodeId_injective (stem : String) : Function.Injective (nodeId stem) :=
  fun _ _ h => nodeId_inj.mp h

theorem nodeId_ne_empty (stem : String) (n : Nat) : nodeId stem n ≠ "" := by
  intro h
  have hl := congrArg String.toList h
  simp [toList_nodeId] at hl

/-! Texts that are joined by a separator. -/

/-- Joined texts have the same parts, or a separator stands inside one of the first parts. -/
theorem join_eq_join {a a' b b' : List Char} (h : a ++ '_' :: b = a' ++ '_' :: b') :
    a = a' ∧ b = b' ∨ (∃ u, a' = a ++ '_' :: u ∧ b = u ++ '_' :: b') ∨
      ∃ u, a = a' ++ '_' :: u ∧ b' = u ++ '_' :: b := by
  rcases List.append_eq_append_iff.mp h with ⟨u, rfl, hu⟩ | ⟨u, rfl, hu⟩
  · cases u with
    | nil => exact Or.inl ⟨by simp, (List.cons.inj hu).2⟩
    | cons c u =>
      obtain ⟨rfl, rfl⟩ := List.cons.inj hu
      exact Or.inr (Or.inl ⟨u, rfl, rfl⟩)
  · cases u with
    | nil => exact Or.inl ⟨by simp, (List.cons.inj hu).2.symm⟩
    | cons c u =>
      obtain ⟨rfl, rfl⟩ := List.cons.inj hu
      exact Or.inr (Or.inr ⟨u, rfl, rfl⟩)

/-- Two texts that are cut at their first separator have the same parts. -/
theorem cut_first {a a' b b' : List Char} (ha : '_' ∉ a) (ha' : '_' ∉ a')
    (h : a ++ '_' :: b = a' ++ '_' :: b') : a = a' ∧ b = b' := by
  rcases join_eq_join h with h | ⟨u, rfl, -⟩ | ⟨u, rfl, -⟩
  · exact h
  · simp at ha'
  · simp at ha

theorem cut_last {a a' b b' : List Char} (hb : '_' ∉ b) (hb' : '_' ∉ b')
    (h : a ++ '_' :: b = a' ++ '_' :: b') : a = a' ∧ b = b' := by
  rcases join_eq_join h with h | ⟨u, -, rfl⟩ | ⟨u, -, rfl⟩
  · exact h
  · simp at hb
  · simp at hb'

namespace Edge

/-- What the id of a structural edge holds of its tag and its target. -/
def tagged (target : String) : Branch → String
  | .none => target
  | b => b.name ++ "_" ++ target

/-- The id of an edge from `s` to `t` with the tag `b` is also that of another edge: the source of
that one goes on where `s` ends, or its tag stands at the front of `t`. -/
inductive Misread (s t : String) (b : Branch) : String → String → Branch → Prop
  | source {u t' : String} {b' : Branch} : tagged t b = u ++ "_" ++ tagged t' b' →
      Misread s t b (s ++ "_" ++ u) t' b'
  | tag {t' : String} {b' : Branch} : b = .none → b' ≠ .none → t = b'.name ++ "_" ++ t' →
      Misread s t b s t' b'

variable {s t s' t' : String} {b b' : Branch}

theorem structuralId_eq (s t : String) (b : Branch) :
    structuralId s t b = "edge_" ++ s ++ "_" ++ tagged t b := by
  cases b <;> simp [structuralId, tagged, String.append_assoc]

theorem tagged_of_ne (t : String) (hb : b ≠ .none) : tagged t b = b.name ++ "_" ++ t := by
  cases b with
  | none => exact absurd rfl hb
  | _ => rfl

/-- No tag has a separator in its name, so the first separator ends the tag. -/
theorem eq_of_tagged_eq (hb : b ≠ .none) (hb' : b' ≠ .none) (h : tagged t b = tagged t' b') :
    b = b' ∧ t = t' := by
  have hname : ∀ x : Branch, '_' ∉ x.name.toList := by
    intro x
    cases x <;> decide
  rw [tagged_of_ne t hb, tagged_of_ne t' hb', ← String.toList_inj] at h
  simp only [String.toList_append, List.append_assoc] at h
  obtain ⟨hx, ht⟩ := cut_first (hname b) (hname b') h
  refine ⟨?_, String.toList_inj.mp ht⟩
  revert hx
  cases b <;> cases b' <;> simp [Branch.name]

/-- Ids are read in one way, or one of them can be misread for the other. -/
theorem structuralId_eq_iff : structuralId s t b = structuralId s' t' b' ↔
    (s = s' ∧ t = t' ∧ b = b') ∨ Misread s t b s' t' b' ∨ Misread s' t' b' s t b := by
  have hjoin : structuralId s t b = structuralId s' t' b' ↔
      s.toList ++ '_' :: (tagged t b).toList = s'.toList ++ '_' :: (tagged t' b').toList := by
    rw [structuralId_eq, structuralId_eq, ← String.toList_inj]
    simp [String.toList_append]
  rw [hjoin]
  constructor
  · intro h
    rcases join_eq_join h with ⟨hs, ht⟩ | ⟨u, hs, ht⟩ | ⟨u, hs, ht⟩
    · obtain rfl := String.toList_inj.mp hs
      have ht := String.toList_inj.mp ht
      by_cases hb : b = .none
      · by_cases hb' : b' = .none
        · subst hb hb'
          exact Or.inl ⟨rfl, ht, rfl⟩
        · subst hb
          exact Or.inr (Or.inl (.tag rfl hb' (by rw [← tagged_of_ne t' hb']; exact ht)))
      · by_cases hb' : b' = .none
        · subst hb'
          exact Or.inr (Or.inr (.tag rfl hb (by rw [← tagged_of_ne t hb]; exact ht.symm)))
        · obtain ⟨rfl, rfl⟩ := eq_of_tagged_eq hb hb' ht
          exact Or.inl ⟨rfl, rfl, rfl⟩
    · obtain rfl : s' = s ++ "_" ++ String.ofList u := String.toList_inj.mp (by simp [hs])
      exact Or.inr (Or.inl (.source (String.toList_inj.mp (by simp [ht]))))
    · obtain rfl : s = s' ++ "_" ++ String.ofList u := String.toList_inj.mp (by simp [hs])
      exact Or.inr (Or.inr (.source (String.toList_inj.mp (by simp [ht]))))
  · rintro (⟨rfl, rfl, rfl⟩ | h | h)
    · rfl
    · cases h with
      | source h => simp [h]
      | tag hb hb' h => rw [hb, tagged, h, tagged_of_ne t' hb']
    · cases h with
      | source h => simp [h]
      | tag hb hb' h => rw [hb, tagged, h, tagged_of_ne t hb']

/-- A structural edge and a data edge never have one id. -/
theorem structuralId_ne_dataId (s t : String) (b : Branch) (s' t' v : String) :
    structuralId s t b ≠ dataId s' t' v := by
  intro h
  rw [structuralId_eq, dataId, ← String.toList_inj] at h
  simp [String.toList_append] at h

end Edge

/-- None of the ids in question goes on behind another one, or behind the name of a tag. -/
structure Separate (IsId : String → Prop) : Prop where
  source : ∀ {x y}, IsId x → IsId y → ∀ u, y ≠ x ++ "_" ++ u
  tag : ∀ {x y}, IsId x → IsId y → ∀ b : Branch, b ≠ .none → y ≠ b.name ++ "_" ++ x

namespace Separate

variable {IsId : String → Prop} {s t s' t' : String}

theorem mono (h : Separate IsId) {P : String → Prop} (hP : ∀ id, P id → IsId id) : Separate P :=
  ⟨fun hx hy => h.source (hP _ hx) (hP _ hy), fun hx hy => h.tag (hP _ hx) (hP _ hy)⟩

/-- Between separate ids no edge is misread for another. -/
theorem not_misread (h : Separate IsId) {b b' : Branch} (hs : IsId s) (ht : IsId t)
    (hs' : IsId s') (ht' : IsId t') : ¬ Edge.Misread s t b s' t' b' := by
  intro hm
  cases hm with
  | source => exact h.source hs hs' _ rfl
  | tag _ hb ht₀ => exact h.tag ht' ht _ hb ht₀

theorem structuralId_inj (h : Separate IsId) {b b' : Branch} (hs : IsId s) (ht : IsId t)
    (hs' : IsId s') (ht' : IsId t')
    (heq : Edge.structuralId s t b = Edge.structuralId s' t' b') : s = s' ∧ t = t' ∧ b = b' := by
  rcases Edge.structuralId_eq_iff.mp heq with heq | hm | hm
  · exact heq
  · exact absurd hm (h.not_misread hs ht hs' ht')
  · exact absurd hm (h.not_misread hs' ht' hs ht)

/-- Texts that begin with one of the ids and a separator begin with the same id. -/
theorem eq_of_join (h : Separate IsId) (hs : IsId s) (hs' : IsId s') {v v' : String}
    (heq : s ++ "_" ++ v = s' ++ "_" ++ v') : s = s' ∧ v = v' := by
  have hl := congrArg String.toList heq
  simp only [String.toList_append, List.append_assoc] at hl
  rcases join_eq_join hl with ⟨hx, hv⟩ | ⟨u, hx, -⟩ | ⟨u, hx, -⟩
  · exact ⟨String.toList_inj.mp hx, String.toList_inj.mp hv⟩
  · exact absurd (String.toList_inj.mp (by simp [hx])) (h.source hs hs' (String.ofList u))
  · exact absurd (String.toList_inj.mp (by simp [hx])) (h.source hs' hs (String.ofList u))

theorem dataId_inj (h : Separate IsId) {v v' : String} (hs : IsId s) (ht : IsId t)
    (hs' : IsId s') (ht' : IsId t') (heq : Edge.dataId s t v = Edge.dataId s' t' v') :
    s = s' ∧ t = t' ∧ v = v' := by
  have hjoin : s ++ "_" ++ (t ++ "_" ++ v) = s' ++ "_" ++ (t' ++ "_" ++ v') := by
    rw [Edge.dataId, Edge.dataId, ← String.toList_inj] at heq
    rw [← String.toList_inj]
    simpa [String.toList_append] using heq
  obtain ⟨rfl, hrest⟩ := h.eq_of_join hs hs' hjoin
  obtain ⟨rfl, rfl⟩ := h.eq_of_join ht ht' hrest
  exact ⟨rfl, rfl, rfl⟩

end Separate

/-- The number ends a node id, and there is no separator in it. -/
theorem separate_nodeId (stem : String) : Separate fun id => ∃ n, id = nodeId stem n := by
  refine ⟨?_, ?_⟩
  · rintro _ _ ⟨m, rfl⟩ ⟨n, rfl⟩ u h
    have hl := congrArg String.toList h
    simp only [String.toList_append, toList_nodeId, List.append_assoc, List.cons_append,
      List.append_cancel_left_eq, List.cons.injEq, true_and] at hl
    have hmem : '_' ∈ Nat.toDigits 10 n := by simp [hl]
    simp at hmem
  · rintro _ _ ⟨m, rfl⟩ ⟨n, rfl⟩ b _ h
    have hl := congrArg String.toList h
    simp only [String.toList_append, toList_nodeId] at hl
    rw [← List.append_assoc] at hl
    obtain ⟨hstem, -⟩ := cut_last (by simp) (by simp) hl
    have hlength := congrArg List.length hstem
    simp at hlength
    omega

theorem Edge.structuralId_inj {stem : String} {s t s' t' : Nat} {x y : Branch}
    (h : structuralId (nodeId stem s) (nodeId stem t) x =
      structuralId (nodeId stem s') (nodeId stem t') y) : s = s' ∧ t = t' ∧ x = y := by
  obtain ⟨hs, ht, hb⟩ := (separate_nodeId stem).structuralId_inj ⟨s, rfl⟩ ⟨t, rfl⟩ ⟨s', rfl⟩
    ⟨t', rfl⟩ h
  exact ⟨nodeId_inj.mp hs, nodeId_inj.mp ht, hb⟩

namespace Link

theorem edge_id_injective (stem : String) : Function.Injective fun l => (Link.edge stem l).id := by
  rintro ⟨s, t, x⟩ ⟨s', t', y⟩ h
  obtain ⟨rfl, rfl, rfl⟩ := Edge.structuralId_inj h
  rfl

end Link

end ScriptFlow
