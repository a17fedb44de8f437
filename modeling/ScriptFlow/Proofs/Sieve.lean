import ScriptFlow.Proofs.Tidying

/-! What goes out as it is: the values that pass the sieves they are put through, which are those
without a withheld key and those without a number that is not finite. A value that cannot be read is
complained of with parts of it, so that what is let through of the value is let through of the
complaints. -/

namespace ScriptFlow

namespace Json

/-- All keys and all numbers in the value are let through, at any depth. -/
def Passes (σ : Sieve) (v : Json) : Prop := v.passes σ = true

/-- No key in the value is withheld, at any depth. -/
def Clear (v : Json) : Prop := v.Passes .clear

section

variable {σ τ : Sieve}

mutual
/-- A value that is let through is left as it is. -/
theorem sifted_of_passes : (v : Json) → v.passes σ = true → v.sifted σ = v
  | .float _, h => if_pos h
  | .arr vs, h => by rw [sifted, siftedItems_of_passes vs h]
  | .obj fs, h => by rw [sifted, siftedFields_of_passes fs h]
  | .null, _ => rfl
  | .bool _, _ => rfl
  | .int _, _ => rfl
  | .str _, _ => rfl

theorem siftedItems_of_passes : (vs : List Json) → passesItems σ vs = true →
    siftedItems σ vs = vs
  | [], _ => rfl
  | v :: vs, h => by
    obtain ⟨hv, hvs⟩ := Bool.and_eq_true_iff.mp h
    rw [siftedItems, sifted_of_passes v hv, siftedItems_of_passes vs hvs]

theorem siftedFields_of_passes : (fs : List (String × Json)) → passesFields σ fs = true →
    siftedFields σ fs = fs
  | [], _ => rfl
  | (k, v) :: fs, h => by
    obtain ⟨hk, hfs⟩ := Bool.and_eq_true_iff.mp h
    obtain ⟨hv, hfs⟩ := Bool.and_eq_true_iff.mp hfs
    rw [siftedFields, if_pos hk, sifted_of_passes v hv, siftedFields_of_passes fs hfs]
end

mutual
/-- What is left of a value is let through. -/
theorem passes_sifted : (v : Json) → (v.sifted σ).passes σ = true
  | .float x => by
    rw [sifted]
    split
    · next h => exact h
    · rfl
  | .arr vs => passesItems_sifted vs
  | .obj fs => passesFields_sifted fs
  | .null => rfl
  | .bool _ => rfl
  | .int _ => rfl
  | .str _ => rfl

theorem passesItems_sifted : (vs : List Json) → passesItems σ (siftedItems σ vs) = true
  | [] => rfl
  | v :: vs => Bool.and_eq_true_iff.mpr ⟨passes_sifted v, passesItems_sifted vs⟩

theorem passesFields_sifted : (fs : List (String × Json)) →
    passesFields σ (siftedFields σ fs) = true
  | [] => rfl
  | (k, v) :: fs => by
    rw [siftedFields]
    split
    · next h =>
      exact Bool.and_eq_true_iff.mpr
        ⟨h, Bool.and_eq_true_iff.mpr ⟨passes_sifted v, passesFields_sifted fs⟩⟩
    · exact passesFields_sifted fs
end

mutual
/-- What another sieve lets through of a value it lets through of what is left of the value. -/
theorem passes_sifted_of_passes : (v : Json) → v.passes τ = true → (v.sifted σ).passes τ = true
  | .float x, h => by
    rw [sifted]
    split
    · exact h
    · rfl
  | .arr vs, h => passesItems_sifted_of_passes vs h
  | .obj fs, h => passesFields_sifted_of_passes fs h
  | .null, _ => rfl
  | .bool _, _ => rfl
  | .int _, _ => rfl
  | .str _, _ => rfl

theorem passesItems_sifted_of_passes : (vs : List Json) → passesItems τ vs = true →
    passesItems τ (siftedItems σ vs) = true
  | [], _ => rfl
  | v :: vs, h => by
    obtain ⟨hv, hvs⟩ := Bool.and_eq_true_iff.mp h
    exact Bool.and_eq_true_iff.mpr
      ⟨passes_sifted_of_passes v hv, passesItems_sifted_of_passes vs hvs⟩

theorem passesFields_sifted_of_passes : (fs : List (String × Json)) →
    passesFields τ fs = true → passesFields τ (siftedFields σ fs) = true
  | [], _ => rfl
  | (k, v) :: fs, h => by
    obtain ⟨hk, hfs⟩ := Bool.and_eq_true_iff.mp h
    obtain ⟨hv, hfs⟩ := Bool.and_eq_true_iff.mp hfs
    rw [siftedFields]
    split
    · exact Bool.and_eq_true_iff.mpr ⟨hk, Bool.and_eq_true_iff.mpr
        ⟨passes_sifted_of_passes v hv, passesFields_sifted_of_passes fs hfs⟩⟩
    · exact passesFields_sifted_of_passes fs hfs
end

/-- A value without withheld keys is encoded as it is. -/
theorem encoded_of_clear {v : Json} (h : v.Clear) : v.encoded = v := sifted_of_passes v h

theorem Passes.encoded {v : Json} (h : v.Passes τ) : v.encoded.Passes τ :=
  passes_sifted_of_passes v h

end

end Json

variable {σ : Json.Sieve}

/-- All keys of the fields are let through, and all keys and numbers in their values. -/
def Fields.Passes (σ : Json.Sieve) (fs : Fields) : Prop :=
  ∀ f ∈ fs, σ.key f.1 = true ∧ f.2.Passes σ

namespace Json

theorem passes_arr {vs : List Json} : (Json.arr vs).Passes σ ↔ ∀ v ∈ vs, v.Passes σ := by
  rw [Passes, passes]
  induction vs with
  | nil => simp [passesItems]
  | cons v vs ih => rw [passesItems, Bool.and_eq_true, ih, List.forall_mem_cons, Passes]

theorem passes_obj {fs : Fields} : (Json.obj fs).Passes σ ↔ fs.Passes σ := by
  rw [Passes, passes, Fields.Passes]
  induction fs with
  | nil => simp [passesFields]
  | cons f fs ih =>
    rw [passesFields, Bool.and_eq_true, Bool.and_eq_true, ih, List.forall_mem_cons, and_assoc,
      Passes]

theorem passes_str (s : String) : (Json.str s).Passes σ := rfl

end Json

namespace Fields

variable {fs gs : Fields} {k : String} {v : Json}

theorem Passes.nil : Passes σ [] := fun _ h => absurd h List.not_mem_nil

/-- One more field under a key of the program. -/
theorem Passes.cons (hk : Json.isWithheld k = false) (hv : v.Passes σ) (h : fs.Passes σ) :
    Passes σ ((k, v) :: fs) :=
  List.forall_mem_cons.mpr ⟨⟨σ.key_of_not_withheld k hk, hv⟩, h⟩

theorem passes_append : Passes σ (fs ++ gs) ↔ fs.Passes σ ∧ gs.Passes σ :=
  List.forall_mem_append

theorem Passes.without (h : fs.Passes σ) (keys : List String) : (fs.without keys).Passes σ :=
  fun f hf => h f (List.mem_of_mem_filter hf)

theorem Passes.of_get? (h : fs.Passes σ) (hv : fs.get? k = some v) : v.Passes σ := by
  induction fs with
  | nil => cases hv
  | cons f fs ih =>
    rw [get?_cons] at hv
    split at hv
    · cases hv
      exact (h f List.mem_cons_self).2
    · exact ih (fun f hf => h f (List.mem_cons_of_mem _ hf)) hv

theorem Passes.value (h : fs.Passes σ) (k : String) : (fs.value k).Passes σ := by
  unfold Fields.value
  cases hv : fs.get? k with
  | none => rfl
  | some v => exact h.of_get? hv

theorem Passes.set (h : fs.Passes σ) (hk : Json.isWithheld k = false) (hv : v.Passes σ) :
    (fs.set k v).Passes σ := by
  intro f hf
  rcases mem_set hf with hf | rfl
  · exact h f hf
  · exact ⟨σ.key_of_not_withheld k hk, hv⟩

theorem Passes.optionalField {v? : Option Json} (hk : Json.isWithheld k = false)
    (h : ∀ v, v? = some v → v.Passes σ) : (ScriptFlow.optionalField k v?).Passes σ := by
  cases v? with
  | none => exact .nil
  | some v => exact .cons hk (h v rfl) .nil

/-- Fields with finite numbers only are dumped as they are. -/
theorem dumped_of_passes (h : fs.Passes .finite) : fs.dumped = fs :=
  Json.obj.inj (Json.sifted_of_passes (.obj fs) (Json.passes_obj.mpr h))

theorem passes_dumped (fs : Fields) : fs.dumped.Passes .finite :=
  Json.passes_obj.mp (Json.passes_sifted (.obj fs))

example : Fields.dumped [("ms", .float (1 / 0))] = [("ms", .null)] := by decide +kernel

theorem Passes.dumped (h : fs.Passes σ) : fs.dumped.Passes σ :=
  Json.passes_obj.mp (Json.passes_sifted_of_passes (.obj fs) (Json.passes_obj.mpr h))

/-- A field that is taken over from other fields. -/
theorem Passes.taken (h : fs.Passes σ) (hk : Json.isWithheld k = false) :
    (ScriptFlow.optionalField k (fs.get? k)).Passes σ :=
  .optionalField hk fun _ hv => h.of_get? hv

end Fields

/-! What is complained of: parts of the value that was read. -/

namespace Checked

variable {α β : Type} {v : Json}

/-- The values that are complained of are let through. -/
def Passes (σ : Json.Sieve) (x : Checked α) : Prop := ∀ i ∈ x.issues, i.input.Passes σ

theorem Passes.accepted (a : α) : (Checked.accepted a).Passes σ :=
  fun _ h => absurd h List.not_mem_nil

theorem passes_refuse (p : Problem) (hv : v.Passes σ) : (refuse p v : Checked α).Passes σ :=
  List.forall_mem_singleton.mpr hv

theorem Passes.map {x : Checked α} (h : x.Passes σ) (f : α → β) : (x.map f).Passes σ := by
  cases x <;> exact h

theorem Passes.apply {f : Checked (α → β)} {x : Checked α} (hf : f.Passes σ) (hx : x.Passes σ) :
    (f.apply x).Passes σ := by
  cases f with
  | accepted f => cases x <;> exact hx
  | refused issues => exact List.forall_mem_append.mpr ⟨hf, hx⟩

theorem Passes.under {x : Checked α} (h : x.Passes σ) (s : Step) : (x.under s).Passes σ := by
  cases x with
  | accepted a => exact .accepted a
  | refused issues => exact List.forall_mem_map.mpr h

theorem passes_items {check : Json → Checked α} {vs : List Json}
    (h : ∀ v ∈ vs, (check v).Passes σ) (i : Nat) : (items check i vs).Passes σ := by
  induction vs generalizing i with
  | nil => exact .accepted []
  | cons v vs ih =>
    obtain ⟨hv, hvs⟩ := List.forall_mem_cons.mp h
    exact ((hv.under _).map _).apply (ih hvs (i + 1))

end Checked

namespace Read

variable {α : Type} {check : Json → Checked α} {fs : Fields}

/-- What is let through is complained of with nothing but what is let through. -/
def Passes (σ : Json.Sieve) (check : Json → Checked α) : Prop :=
  ∀ v, v.Passes σ → (check v).Passes σ

theorem passes_text : Passes σ text := by
  intro v hv
  unfold text
  split
  · exact .accepted _
  · exact Checked.passes_refuse _ hv

theorem Passes.list (hcheck : Passes σ check) : Passes σ (Read.list check) := by
  intro v hv
  unfold Read.list
  split
  · exact Checked.passes_items (fun w hw => hcheck w (Json.passes_arr.mp hv w hw)) 0
  · exact Checked.passes_refuse _ hv

theorem Passes.field (hcheck : Passes σ check) (h : fs.Passes σ) (key : String) (absent : α) :
    (Read.field fs key absent check).Passes σ := by
  unfold Read.field
  split
  · next v hv => exact (hcheck v (h.of_get? hv)).under _
  · exact .accepted absent

theorem passes_record {origin : Origin} {name : String} {check : Fields → Checked α}
    (hcheck : ∀ fs : Fields, fs.Passes σ → (check fs).Passes σ) :
    Passes σ (record origin name check) := by
  intro v hv
  unfold record
  split
  · next fs => exact hcheck fs (Json.passes_obj.mp hv)
  · exact Checked.passes_refuse _ hv

end Read

/-- A complaint is reported with the value that is complained of. -/
theorem Issue.passes_report {i : Issue} (h : i.input.Passes σ) : i.report.Passes σ := by
  have hpath : i.pathJson.Passes σ := by
    refine Json.passes_arr.mpr fun v hv => ?_
    obtain ⟨s, -, rfl⟩ := List.mem_map.mp hv
    cases s <;> rfl
  have hcontext : Fields.Passes σ i.problem.context := by
    cases i.problem with
    | notRecord name => exact .cons rfl (Json.passes_str _) .nil
    | notOneOf choices => exact .cons rfl (Json.passes_str _) .nil
    | _ => exact .nil
  refine Json.passes_obj.mpr (Fields.passes_append.mpr ⟨.cons rfl (Json.passes_str _)
    (.cons rfl hpath (.cons rfl (Json.passes_str _) (.cons rfl h .nil))), ?_⟩)
  split
  · exact .nil
  · exact .cons rfl (Json.passes_obj.mpr hcontext) .nil

end ScriptFlow
