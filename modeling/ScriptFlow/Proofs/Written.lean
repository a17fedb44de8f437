import ScriptFlow.Json.Writer

/-! How values without parts are written. Numbers have digits, a point, signs and an exponent mark, and
the other words have letters, so no brace, bracket, comma or quote is in any of them. A character of
a string stands for itself, or a backslash and a code stand for it. -/

namespace ScriptFlow

namespace NumberStyle

/-- A character of a number with the exponent mark `e`. -/
def InNumber (c : Char) : Prop := c.isDigit = true ∨ c ∈ ['.', '+', '-', 'e']

theorem inNumber_of_mem_decimalDigits {n : Nat} {c : Char} (h : c ∈ decimalDigits n) :
    InNumber c :=
  Or.inl (Nat.isDigit_of_mem_toDigits (by decide) (by decide) h)

theorem inNumber_of_mem_replicate {n : Nat} {c : Char} (h : c ∈ List.replicate n '0') :
    InNumber c := by
  obtain rfl := List.eq_of_mem_replicate h
  exact Or.inl rfl

theorem inNumber_of_mem_signed {negative : Bool} {cs : List Char} (hcs : ∀ c ∈ cs, InNumber c) :
    ∀ c ∈ signed negative cs, InNumber c := by
  cases negative with
  | false => exact hcs
  | true => exact List.forall_mem_cons.mpr ⟨Or.inr (by simp), hcs⟩

theorem inNumber_of_mem_exponentText {st : NumberStyle} (hmark : st.exponentMark = 'e') {e : Int} :
    ∀ c ∈ st.exponentText e, InNumber c := by
  refine List.forall_mem_cons.mpr ⟨Or.inr (by simp [hmark]), List.forall_mem_cons.mpr ⟨?_, ?_⟩⟩
  · split
    · exact Or.inr (by simp)
    · exact Or.inr (by simp)
  · intro c hc
    rcases List.mem_append.mp hc with hc | hc
    · exact inNumber_of_mem_replicate hc
    · exact inNumber_of_mem_decimalDigits hc

theorem inNumber_of_mem_positional {ds : List Char} (hds : ∀ c ∈ ds, InNumber c) {e : Int} :
    ∀ c ∈ positional ds e, InNumber c := by
  have hpoint : InNumber '.' := Or.inr (by simp)
  unfold positional
  split
  · intro c hc
    simp only [List.mem_append] at hc
    rcases hc with (hc | hc) | hc
    · exact hds c hc
    · exact inNumber_of_mem_replicate hc
    · simp only [List.mem_cons, List.not_mem_nil, or_false] at hc
      rcases hc with rfl | rfl
      · exact hpoint
      · exact Or.inl rfl
  · have hpadded : ∀ {n : Nat}, ∀ c ∈ List.replicate n '0' ++ ds, InNumber c := by
      intro n c hc
      rcases List.mem_append.mp hc with hc | hc
      · exact inNumber_of_mem_replicate hc
      · exact hds c hc
    intro c hc
    rcases List.mem_append.mp hc with hc | hc
    · exact hpadded c (List.mem_of_mem_take hc)
    · rcases List.mem_cons.mp hc with rfl | hc
      · exact hpoint
      · exact hpadded c (List.mem_of_mem_drop hc)

theorem inNumber_of_mem_decimal {st : NumberStyle} (hmark : st.exponentMark = 'e') {d : Decimal} :
    ∀ c ∈ st.decimal d, InNumber c := by
  have hdigits : ∀ c ∈ decimalDigits d.digits, InNumber c :=
    fun c hc => inNumber_of_mem_decimalDigits hc
  unfold decimal
  dsimp only
  split
  · simp [InNumber]
  split
  · exact inNumber_of_mem_positional hdigits
  split
  · next c hc =>
    rw [hc] at hdigits
    exact List.forall_mem_cons.mpr ⟨hdigits c List.mem_cons_self, inNumber_of_mem_exponentText hmark⟩
  · next c rest hc =>
    rw [hc] at hdigits
    obtain ⟨hfirst, hrest⟩ := List.forall_mem_cons.mp hdigits
    refine List.forall_mem_cons.mpr ⟨hfirst, List.forall_mem_cons.mpr ⟨Or.inr (by simp), ?_⟩⟩
    exact List.forall_mem_append.mpr ⟨hrest, inNumber_of_mem_exponentText hmark⟩
  · simp

theorem inNumber_of_mem_integerDigits {n : Int} : ∀ c ∈ integerDigits n, InNumber c :=
  inNumber_of_mem_signed fun _ hc => inNumber_of_mem_decimalDigits hc

end NumberStyle

namespace Json

/-- Neither a text nor a list nor an object. -/
def Plain : Json → Prop
  | .str _ | .arr _ | .obj _ => False
  | _ => True

/-- A letter, a digit, a point or a sign. -/
def InWord (c : Char) : Prop := c.isAlphanum = true ∨ c ∈ ['.', '+', '-']

theorem inWord_of_inNumber {c : Char} (h : NumberStyle.InNumber c) : InWord c := by
  rcases h with h | h
  · exact Or.inl (by rw [Char.isAlphanum, h, Bool.or_true])
  · simp only [List.mem_cons, List.not_mem_nil, or_false] at h
    rcases h with rfl | rfl | rfl | rfl
    · exact Or.inr (by simp)
    · exact Or.inr (by simp)
    · exact Or.inr (by simp)
    · exact Or.inl rfl

/-- A value without parts is written as a word. -/
theorem Plain.inWord {v : Json} (h : v.Plain) : ∀ c ∈ v.chars, InWord c := by
  have hword : ∀ s ∈ ["null", "true", "false", "Infinity", "-Infinity", "NaN"],
      ∀ c ∈ s.toList, InWord c := by
    simp [InWord]
  cases v with
  | null => exact hword "null" (by simp)
  | bool b =>
    cases b with
    | false => exact hword "false" (by simp)
    | true => exact hword "true" (by simp)
  | int n => exact fun c hc => inWord_of_inNumber (NumberStyle.inNumber_of_mem_integerDigits c hc)
  | float x =>
    rw [chars, NumberStyle.float]
    split
    · exact fun c hc => inWord_of_inNumber
        (NumberStyle.inNumber_of_mem_signed (NumberStyle.inNumber_of_mem_decimal rfl) c hc)
    · next negative _ =>
      cases negative with
      | false => exact hword "Infinity" (by simp)
      | true => exact hword "-Infinity" (by simp)
    · exact hword "NaN" (by simp)
  | str s => exact h.elim
  | arr vs => exact h.elim
  | obj fs => exact h.elim

/-- The characters that are escaped by a letter or a sign, each with it. -/
def escapeLetters : List (Char × Char) :=
  [('"', '"'), ('\\', '\\'), ('\n', 'n'), ('\r', 'r'), ('\t', 't'), ('\x08', 'b'), ('\x0c', 'f')]

/-- What is written of a character: itself, a backslash and a letter, or one or two UTF-16 units. -/
inductive Escaped : Char → List Char → Prop
  | plain {c : Char} : 32 ≤ c.toNat → c.toNat < 127 → c ≠ '"' → c ≠ '\\' → Escaped c [c]
  | letter {c d : Char} : (c, d) ∈ escapeLetters → Escaped c ['\\', d]
  | unit {c : Char} : c.toNat < 32 ∨ 127 ≤ c.toNat → c.toNat < 0x10000 →
      Escaped c (escapeUnit c.toNat)
  | pair {c : Char} : 0x10000 ≤ c.toNat →
      Escaped c (escapeUnit (0xD800 + (c.toNat - 0x10000) / 0x400) ++
        escapeUnit (0xDC00 + (c.toNat - 0x10000) % 0x400))

theorem escaped_escape (c : Char) : Escaped c (escape c) := by
  unfold escape
  split
  · next h => exact .letter (by simp [escapeLetters, h])
  next hquote =>
  split
  · next h => exact .letter (by simp [escapeLetters, h])
  next hbackslash =>
  split
  · next h => exact .letter (by simp [escapeLetters, h])
  split
  · next h => exact .letter (by simp [escapeLetters, h])
  split
  · next h => exact .letter (by simp [escapeLetters, h])
  split
  · next h =>
    obtain rfl : c = '\x08' := Char.toNat_inj.mp h
    exact .letter (by simp [escapeLetters])
  split
  · next h =>
    obtain rfl : c = '\x0c' := Char.toNat_inj.mp h
    exact .letter (by simp [escapeLetters])
  split
  · next h => exact .plain h.1 h.2 hquote hbackslash
  next hcode =>
  unfold unitsOf
  split
  · next h =>
    rw [List.flatMap_singleton]
    exact .unit (by omega) h
  · simpa using Escaped.pair (by omega)

end Json

end ScriptFlow
