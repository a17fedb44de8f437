import ScriptFlow.Proofs.Fingerprint

/-! What the order of keys does not tell. Values are alike if at most the order of keys differs in
them, at any depth. Fields are read, written and compared alike whatever order their keys are in, and
the same fields are found missing. -/

namespace ScriptFlow

theorem Json.Alike.symm {v w : Json} (h : v.Alike w) : w.Alike v := by
  induction h with
  | refl v => exact .refl v
  | arr length _ ih => exact .arr length.symm fun i v w hv hw => ih i w v hw hv
  | obj keys _ ih => exact .obj (fun key => (keys key).symm) fun key v w hv hw => ih key w v hw hv

theorem Json.Alike.rel_refl (v? : Option Json) : Option.Rel Alike v? v? := by
  cases v? with
  | none => exact .none
  | some v => exact .some (.refl v)

/-- The same keys, with alike values under them. -/
def Fields.Alike (fs gs : Fields) : Prop := (Json.obj fs).Alike (.obj gs)

namespace Fields

variable {fs gs fs' gs' : Fields} {key : String} {v w : Json}

theorem Alike.refl (fs : Fields) : fs.Alike fs := Json.Alike.refl _

theorem alike_iff : fs.Alike gs ↔ ∀ key, Option.Rel Json.Alike (fs.get? key) (gs.get? key) := by
  constructor
  · intro h key
    cases h with
    | refl => exact Json.Alike.rel_refl _
    | obj hkeys hvalues =>
      have hhas := hkeys key
      rw [has, has] at hhas
      cases hv : fs.get? key with
      | none =>
        rw [hv, Option.isSome_none, eq_comm, Option.isSome_eq_false_iff,
          Option.isNone_iff_eq_none] at hhas
        rw [hhas]
        exact .none
      | some v =>
        rw [hv, Option.isSome_some, eq_comm, Option.isSome_iff_exists] at hhas
        obtain ⟨w, hw⟩ := hhas
        rw [hw]
        exact .some (hvalues key v w hv hw)
  · intro h
    refine .obj (fun key => ?_) fun key v w hv hw => ?_
    · have hkey := h key
      rw [has, has]
      generalize fs.get? key = v? at hkey ⊢
      generalize gs.get? key = w? at hkey ⊢
      cases hkey <;> rfl
    · have hkey := h key
      rw [hv, hw] at hkey
      cases hkey with
      | some hvw => exact hvw

namespace Alike

theorem get? (h : fs.Alike gs) (key : String) :
    Option.Rel Json.Alike (fs.get? key) (gs.get? key) :=
  alike_iff.mp h key

theorem value (h : fs.Alike gs) (key : String) : (fs.value key).Alike (gs.value key) := by
  have hkey := h.get? key
  unfold Fields.value
  generalize fs.get? key = v? at hkey ⊢
  generalize gs.get? key = w? at hkey ⊢
  cases hkey with
  | none => exact .refl _
  | some hvw => exact hvw

theorem set (h : fs.Alike gs) (hvw : v.Alike w) (key : String) :
    (fs.set key v).Alike (gs.set key w) := by
  refine alike_iff.mpr fun k => ?_
  by_cases hk : k = key
  · subst hk
    rw [get?_set_self, get?_set_self]
    exact .some hvw
  · rw [get?_set_of_ne _ _ hk, get?_set_of_ne _ _ hk]
    exact h.get? k

theorem without (h : fs.Alike gs) (keys : List String) :
    (fs.without keys).Alike (gs.without keys) := by
  refine alike_iff.mpr fun k => ?_
  rw [get?_without, get?_without]
  split
  · exact .none
  · exact h.get? k

theorem append (h : fs.Alike gs) (h' : fs'.Alike gs') : (fs ++ fs').Alike (gs ++ gs') := by
  refine alike_iff.mpr fun k => ?_
  have hkey := h.get? k
  rw [get?_append, get?_append]
  generalize fs.get? k = v? at hkey ⊢
  generalize gs.get? k = w? at hkey ⊢
  cases hkey with
  | none => exact h'.get? k
  | some hvw => exact .some hvw

theorem single (hvw : v.Alike w) (key : String) : Alike [(key, v)] [(key, w)] := by
  refine alike_iff.mpr fun k => ?_
  rw [get?_cons, get?_cons]
  split
  · exact .some hvw
  · exact .none

theorem cons (h : fs.Alike gs) (hvw : v.Alike w) (key : String) :
    Alike ((key, v) :: fs) ((key, w) :: gs) :=
  (single hvw key).append h

theorem optionalField {v? w? : Option Json} (h : Option.Rel Json.Alike v? w?) (key : String) :
    Alike (ScriptFlow.optionalField key v?) (ScriptFlow.optionalField key w?) := by
  cases h with
  | none => exact refl _
  | some hvw => exact single hvw key

theorem isEmpty_eq (h : fs.Alike gs) : fs.isEmpty = gs.isEmpty := by
  have hnil : ∀ {fs gs : Fields}, fs.Alike gs → fs.isEmpty = true → gs.isEmpty = true := by
    intro fs gs h hfs
    obtain rfl := List.isEmpty_iff.mp hfs
    cases gs with
    | nil => rfl
    | cons g gs =>
      have hkey := h.get? g.1
      rw [get?_nil, get?_cons, if_pos rfl] at hkey
      cases hkey
  exact Bool.eq_iff_iff.mpr ⟨hnil h, hnil h.symm⟩

end Alike

/-- The order of keys does not count. -/
theorem alike_of_perm (hfs : (fs.map Prod.fst).Nodup) (h : fs.Perm gs) : fs.Alike gs := by
  have hgs := (h.map Prod.fst).nodup_iff.mp hfs
  refine alike_iff.mpr fun key => ?_
  rw [(perm_iff_get? hfs hgs).mp h key]
  exact Json.Alike.rel_refl _

end Fields

theorem isEmpty_eq_of_length_eq {α : Type} {xs ys : List α} (h : xs.length = ys.length) :
    xs.isEmpty = ys.isEmpty := by
  rw [Bool.eq_iff_iff, List.isEmpty_iff_length_eq_zero, List.isEmpty_iff_length_eq_zero, h]

namespace Json

variable {v w : Json} {vs ws : List Json}

theorem Alike.truthy_eq (h : v.Alike w) : v.truthy = w.truthy := by
  cases h with
  | refl => rfl
  | @arr vs ws length items =>
    exact congrArg (!·) (isEmpty_eq_of_length_eq length)
  | obj keys values => exact congrArg (!·) (Fields.Alike.isEmpty_eq (.obj keys values))

theorem sameItems_congr (h : List.Forall₂ (fun v w => ∀ u : Json, v.same u = w.same u) vs ws)
    (us : List Json) : sameItems vs us = sameItems ws us := by
  induction h generalizing us with
  | nil => rfl
  | cons hvw _ ih =>
    cases us with
    | nil => rfl
    | cons u us => rw [sameItems, sameItems, hvw, ih]

/-- Where no key is there twice, fields are found equal by what is under each key. -/
theorem sameFields_iff {fs us : Fields} (hfs : (fs.map Prod.fst).Nodup) :
    sameFields fs us = true ↔ ∀ key v, fs.get? key = some v →
      ∃ u, us.get? key = some u ∧ v.same u = true := by
  refine ⟨get?_of_sameFields, fun h => ?_⟩
  have hmem : ∀ f ∈ fs, ∃ u, us.get? f.1 = some u ∧ f.2.same u = true := fun f hf =>
    h f.1 f.2 ((Fields.get?_eq_some_iff hfs).mpr hf)
  clear h hfs
  induction fs with
  | nil => rfl
  | cons f fs ih =>
    obtain ⟨⟨u, hu, hsame⟩, hrest⟩ := List.forall_mem_cons.mp hmem
    rw [sameFields, hu, ih hrest]
    simpa using hsame

theorem has_iff {fs : Fields} {key : String} : fs.has key = true ↔ key ∈ fs.map Prod.fst := by
  induction fs with
  | nil => simp [Fields.has, Fields.get?_nil]
  | cons f fs ih =>
    rw [Fields.has] at ih
    rw [Fields.has, Fields.get?_cons, List.map_cons, List.mem_cons]
    split
    · next hkey => simp [hkey]
    · next hkey => rw [ih, or_iff_right hkey]

/-- Alike values are equal as data to the same values. -/
theorem Alike.same_eq (hv : v.keyed = true) (hw : w.keyed = true) (h : v.Alike w) (u : Json) :
    v.same u = w.same u := by
  induction h generalizing u with
  | refl => rfl
  | @arr vs ws length items ih =>
    rw [keyed_arr] at hv hw
    have hitems : List.Forall₂ (fun v w => ∀ u : Json, v.same u = w.same u) vs ws := by
      refine List.forall₂_iff_get.mpr ⟨length, fun i hi hi' => ?_⟩
      exact ih i _ _ (List.getElem?_eq_getElem hi) (List.getElem?_eq_getElem hi')
        (hv _ (List.getElem_mem hi)) (hw _ (List.getElem_mem hi'))
    cases u with
    | arr us => exact sameItems_congr hitems us
    | _ => rfl
  | @obj fs gs keys values ih =>
    rw [keyed_obj] at hv hw
    have hlength : fs.length = gs.length := by
      have hperm : (fs.map Prod.fst).Perm (gs.map Prod.fst) :=
        (List.perm_ext_iff_of_nodup hv.keys hw.keys).mpr fun key => by
          rw [← has_iff, ← has_iff, keys]
      simpa using hperm.length_eq
    have hfields : ∀ us, sameFields fs us = sameFields gs us := by
      intro us
      rw [Bool.eq_iff_iff, sameFields_iff hv.keys, sameFields_iff hw.keys]
      refine forall_congr' fun key => ?_
      have hkey := Fields.alike_iff.mp (.obj keys values) key
      have hsame : ∀ v w, fs.get? key = some v → gs.get? key = some w →
          ∀ u, v.same u = w.same u := fun v w hfs hgs =>
        ih key v w hfs hgs (hv.of_get? hfs) (hw.of_get? hgs)
      generalize fs.get? key = v? at hkey hsame ⊢
      generalize gs.get? key = w? at hkey hsame ⊢
      cases hkey with
      | none => simp
      | @some v w _ => simp [hsame v w rfl rfl]
    cases u with
    | obj us => rw [same, same, hlength, hfields]
    | _ => rfl

end Json

/-- The check finds the same fields missing. -/
theorem RequiredField.isMissing_alike {fs gs : Fields} (r : RequiredField) (h : fs.Alike gs) :
    r.isMissing fs = r.isMissing gs := by
  have hvalue := h.value r.key
  unfold isMissing
  generalize fs.value r.key = v at hvalue ⊢
  generalize gs.value r.key = w at hvalue ⊢
  cases hvalue with
  | refl => rfl
  | @arr vs ws length items =>
    have hempty := isEmpty_eq_of_length_eq length
    cases r.kind <;> simp [hempty]
  | @obj fs gs keys values =>
    have hempty : fs.isEmpty = gs.isEmpty := Fields.Alike.isEmpty_eq (.obj keys values)
    cases r.kind <;> simp [hempty]

end ScriptFlow
