import ScriptFlow.Proofs.Canonicity
import ScriptFlow.Proofs.Unambiguous
import Mathlib.Data.List.Nodup
import Mathlib.Data.String.Basic

/-! What a canonical text tells. Values in which no object has a key twice have one canonical text if
and only if they are alike: the fields of an object are told by what is under its keys, so sorting
them loses their order and nothing else. -/

namespace ScriptFlow

mutual
/-- No object in the value has a key twice. -/
def Json.keyed : Json → Bool
  | .arr vs => keyedItems vs
  | .obj fs => decide (fs.map Prod.fst).Nodup && keyedFields fs
  | .null | .bool _ | .int _ | .float _ | .str _ => true

def Json.keyedItems : List Json → Bool
  | [] => true
  | v :: vs => v.keyed && keyedItems vs

def Json.keyedFields : List (String × Json) → Bool
  | [] => true
  | (_, v) :: fs => v.keyed && keyedFields fs
end

/-- No key is there twice, nor in any object in a value. -/
structure Fields.Keyed (fs : Fields) : Prop where
  keys : (fs.map Prod.fst).Nodup
  values : ∀ f ∈ fs, f.2.keyed = true

theorem Json.keyed_arr {vs : List Json} :
    (Json.arr vs).keyed = true ↔ ∀ v ∈ vs, v.keyed = true := by
  rw [keyed]
  induction vs with
  | nil => simp [keyedItems]
  | cons v vs ih => rw [keyedItems, Bool.and_eq_true, ih, List.forall_mem_cons]

theorem Json.keyed_obj {fs : Fields} : (Json.obj fs).keyed = true ↔ fs.Keyed := by
  have hfields : keyedFields fs = true ↔ ∀ f ∈ fs, f.2.keyed = true := by
    induction fs with
    | nil => simp [keyedFields]
    | cons f fs ih =>
      obtain ⟨key, v⟩ := f
      rw [keyedFields, Bool.and_eq_true, ih, List.forall_mem_cons]
  rw [keyed, Bool.and_eq_true, decide_eq_true_iff, hfields]
  exact ⟨fun h => ⟨h.1, h.2⟩, fun h => ⟨h.keys, h.values⟩⟩

namespace Fields

variable {fs gs : Fields} {key : String} {v : Json}

theorem mem_of_get? (h : fs.get? key = some v) : (key, v) ∈ fs := by
  induction fs with
  | nil => cases h
  | cons f fs ih =>
    rw [get?_cons] at h
    split at h
    · next hkey =>
      obtain rfl := Option.some.inj h
      exact hkey ▸ List.mem_cons_self
    · exact List.mem_cons_of_mem _ (ih h)

/-- Where no key is there twice, every field is found under its key. -/
theorem get?_eq_some_iff (hfs : (fs.map Prod.fst).Nodup) :
    fs.get? key = some v ↔ (key, v) ∈ fs := by
  refine ⟨mem_of_get?, fun h => ?_⟩
  induction fs with
  | nil => exact absurd h List.not_mem_nil
  | cons f fs ih =>
    obtain ⟨hf, hfs⟩ := List.nodup_cons.mp hfs
    rw [get?_cons]
    rcases List.mem_cons.mp h with rfl | h
    · exact if_pos rfl
    · have hne : key ≠ f.1 := by
        rintro rfl
        exact hf (List.mem_map.mpr ⟨_, h, rfl⟩)
      rw [if_neg hne, ih hfs h]

theorem perm_iff_get? (hfs : (fs.map Prod.fst).Nodup) (hgs : (gs.map Prod.fst).Nodup) :
    fs.Perm gs ↔ ∀ key, fs.get? key = gs.get? key := by
  rw [List.perm_ext_iff_of_nodup hfs.of_map hgs.of_map]
  constructor
  · intro h key
    refine Option.ext fun v => ?_
    rw [get?_eq_some_iff hfs, get?_eq_some_iff hgs, h]
  · rintro h ⟨key, v⟩
    rw [← get?_eq_some_iff hfs, ← get?_eq_some_iff hgs, h]

theorem Keyed.of_get? (h : fs.Keyed) (hv : fs.get? key = some v) : v.keyed = true :=
  h.values _ (mem_of_get? hv)

theorem Keyed.sublist (h : gs.Keyed) (hfs : fs.Sublist gs) : fs.Keyed :=
  ⟨h.keys.sublist (hfs.map _), fun f hf => h.values f (hfs.mem hf)⟩

theorem Keyed.without (h : fs.Keyed) (keys : List String) : (fs.without keys).Keyed :=
  h.sublist List.filter_sublist

end Fields

namespace Json

/-- Fields are sorted alike if they are the same in some order. -/
theorem sortFields_eq_iff {fs gs : Fields} (hfs : (fs.map Prod.fst).Nodup) :
    sortFields fs = sortFields gs ↔ fs.Perm gs := by
  have hperm : ∀ fs : Fields, (sortFields fs).Perm fs := fun fs => List.mergeSort_perm _ _
  have hsorted : ∀ fs : Fields, (sortFields fs).Pairwise fun f g => f.1 ≤ g.1 := by
    intro fs
    refine (List.pairwise_mergeSort ?_ ?_ fs).imp of_decide_eq_true
    · intro f g h hfg hgh
      exact decide_eq_true ((of_decide_eq_true hfg).trans (of_decide_eq_true hgh))
    · intro f g
      rw [Bool.or_eq_true, decide_eq_true_iff, decide_eq_true_iff]
      exact le_total _ _
  refine ⟨fun h => (hperm fs).symm.trans (h ▸ hperm gs), fun h => ?_⟩
  refine List.Perm.eq_of_pairwise ?_ (hsorted fs) (hsorted gs)
    ((hperm fs).trans (h.trans (hperm gs).symm))
  intro f g hf hg hfg hgf
  exact List.inj_on_of_nodup_map hfs ((hperm fs).mem_iff.mp hf)
    (h.mem_iff.mpr ((hperm gs).mem_iff.mp hg)) (le_antisymm hfg hgf)

theorem sortedItems_eq_map (vs : List Json) : sortedItems vs = vs.map sorted := by
  induction vs with
  | nil => rfl
  | cons v vs ih => rw [sortedItems, ih, List.map_cons]

theorem sortedFields_eq_map (fs : Fields) :
    sortedFields fs = fs.map fun f => (f.1, f.2.sorted) := by
  induction fs with
  | nil => rfl
  | cons f fs ih =>
    obtain ⟨key, v⟩ := f
    rw [sortedFields, ih, List.map_cons]

theorem keys_sortedFields (fs : Fields) : (sortedFields fs).map Prod.fst = fs.map Prod.fst := by
  rw [sortedFields_eq_map, List.map_map]
  rfl

theorem get?_sortedFields (fs : Fields) (key : String) :
    Fields.get? (sortedFields fs) key = (fs.get? key).map sorted := by
  induction fs with
  | nil => rfl
  | cons f fs ih =>
    obtain ⟨k, v⟩ := f
    rw [sortedFields, Fields.get?_cons, Fields.get?_cons, ih]
    split <;> rfl

/-- Induction from the parts of a value to the value. -/
@[elab_as_elim]
theorem induction_parts {P : Json → Prop} (v : Json) (plain : ∀ v, v.Plain → P v)
    (str : ∀ s, P (.str s)) (arr : ∀ vs, (∀ v ∈ vs, P v) → P (.arr vs))
    (obj : ∀ fs : Fields, (∀ f ∈ fs, P f.2) → P (.obj fs)) : P v := by
  match v with
  | .null | .bool _ | .int _ | .float _ => exact plain _ trivial
  | .str s => exact str s
  | .arr vs =>
    refine arr vs fun w hw => ?_
    have := List.sizeOf_lt_of_mem hw
    exact induction_parts w plain str arr obj
  | .obj fs =>
    refine obj fs fun f hf => ?_
    have := List.sizeOf_lt_of_mem hf
    have : sizeOf f.2 < sizeOf f := by
      obtain ⟨key, w⟩ := f
      simp
    exact induction_parts f.2 plain str arr obj
termination_by sizeOf v

theorem sorted_obj_eq_iff {fs gs : Fields} (hfs : fs.Keyed) (hgs : gs.Keyed) :
    (obj fs).sorted = (obj gs).sorted ↔
      ∀ key, (fs.get? key).map sorted = (gs.get? key).map sorted := by
  have hkeys : ∀ {fs : Fields}, fs.Keyed → ((sortedFields fs).map Prod.fst).Nodup := by
    intro fs h
    rw [keys_sortedFields]
    exact h.keys
  rw [sorted, sorted, obj.injEq, sortFields_eq_iff (hkeys hfs),
    Fields.perm_iff_get? (hkeys hfs) (hkeys hgs)]
  exact forall_congr' fun key => by rw [get?_sortedFields, get?_sortedFields]

theorem Plain.eq_of_sorted {v w : Json} (hv : v.Plain) (h : v.sorted = w.sorted) : v = w := by
  cases v with
  | str => exact hv.elim
  | arr => exact hv.elim
  | obj => exact hv.elim
  | _ =>
    cases w with
    | _ => cases h <;> rfl

/-- Sorting the fields of every object loses their order and nothing else. -/
theorem sorted_eq_iff {v w : Json} (hv : v.keyed = true) (hw : w.keyed = true) :
    v.sorted = w.sorted ↔ v.Alike w := by
  constructor
  · intro h
    induction v using induction_parts generalizing w with
    | plain v hplain => exact hplain.eq_of_sorted h ▸ .refl v
    | str s =>
      cases w with
      | str t =>
        cases h
        exact .refl _
      | _ => cases h
    | arr vs ih =>
      cases w with
      | arr ws =>
        rw [keyed_arr] at hv hw
        rw [sorted, sorted, arr.injEq, sortedItems_eq_map, sortedItems_eq_map] at h
        refine .arr (by simpa using congrArg List.length h) fun i v w hvs hws => ?_
        have hmap := congrArg (·[i]?) h
        rw [List.getElem?_map, List.getElem?_map, hvs, hws] at hmap
        have hmem := List.mem_of_getElem? hvs
        exact ih v hmem (hv v hmem) (hw w (List.mem_of_getElem? hws)) (Option.some.inj hmap)
      | _ => cases h
    | obj fs ih =>
      cases w with
      | obj gs =>
        rw [keyed_obj] at hv hw
        rw [sorted_obj_eq_iff hv hw] at h
        refine .obj (fun key => ?_) fun key v w hfs hgs => ?_
        · have hmap := congrArg Option.isSome (h key)
          rwa [Option.isSome_map, Option.isSome_map] at hmap
        · have hmap := h key
          rw [hfs, hgs] at hmap
          exact ih (key, v) (Fields.mem_of_get? hfs) (hv.of_get? hfs) (hw.of_get? hgs)
            (Option.some.inj hmap)
      | _ => cases h
  · intro h
    induction h with
    | refl v => rfl
    | @arr vs ws length items ih =>
      rw [keyed_arr] at hv hw
      rw [sorted, sorted, sortedItems_eq_map, sortedItems_eq_map]
      refine congrArg Json.arr (List.ext_getElem (by simpa using length) fun i hi hi' => ?_)
      rw [List.length_map] at hi hi'
      rw [List.getElem_map, List.getElem_map]
      exact ih i _ _ (List.getElem?_eq_getElem hi) (List.getElem?_eq_getElem hi')
        (hv _ (List.getElem_mem hi)) (hw _ (List.getElem_mem hi'))
    | @obj fs gs keys values ih =>
      rw [keyed_obj] at hv hw
      refine (sorted_obj_eq_iff hv hw).mpr fun key => ?_
      have hhas := keys key
      cases hfs : fs.get? key with
      | none =>
        rw [Fields.has, Fields.has, hfs, Option.isSome_none, eq_comm, Option.isSome_eq_false_iff,
          Option.isNone_iff_eq_none] at hhas
        rw [hhas]
      | some v =>
        rw [Fields.has, Fields.has, hfs, Option.isSome_some, eq_comm, Option.isSome_iff_exists] at hhas
        obtain ⟨w, hgs⟩ := hhas
        rw [hgs, Option.map_some, Option.map_some,
          ih key v w hfs hgs (hv.of_get? hfs) (hw.of_get? hgs)]

/-- Values have one canonical text if and only if they are alike. -/
theorem canonicalChars_eq_iff {v w : Json} (hv : v.keyed = true) (hw : w.keyed = true) :
    v.canonicalChars = w.canonicalChars ↔ v.Alike w := by
  rw [canonicalChars, canonicalChars, chars_injective.eq_iff, sorted_eq_iff hv hw]

end Json

end ScriptFlow
