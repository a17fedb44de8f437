import ScriptFlow.Decimal.Numeral
import ScriptFlow.Proofs.Nearest
import ScriptFlow.Proofs.Written
import Mathlib.Tactic.Ring

/-! A number is read back from its text: the sign, and the number that the digits stand for. An
integer is written without a point and without an exponent, a float with one of them, and the other
words have no digit. So values without parts are told by their texts. -/

namespace ScriptFlow

/-! What digits stand for. -/

theorem natOfDigits_append (ds es : List Char) :
    natOfDigits (ds ++ es) = 10 ^ es.length * natOfDigits ds + natOfDigits es := by
  have hall : ∀ cs, natOfDigits cs = Nat.ofDigitChars 10 cs 0 := fun _ => rfl
  rw [hall, hall, hall, Nat.ofDigitChars_append, Nat.ofDigitChars_eq_ofDigitChars_zero]

theorem natOfDigits_replicate (n : Nat) : natOfDigits (List.replicate n '0') = 0 :=
  (@Nat.ofDigitChars_replicate_zero 10 0 n).trans (Nat.mul_zero _)

theorem natOfDigits_decimalDigits (n : Nat) : natOfDigits (decimalDigits n) = n :=
  Nat.ofDigitChars_ten_toDigits

theorem isDigit_of_mem_decimalDigits {n : Nat} {c : Char} (h : c ∈ decimalDigits n) :
    c.isDigit = true :=
  Nat.isDigit_of_mem_toDigits (by decide) (by decide) h

theorem isDigit_of_mem_replicate {n : Nat} {c : Char} (h : c ∈ List.replicate n '0') :
    c.isDigit = true := by
  obtain rfl := List.eq_of_mem_replicate h
  rfl

theorem isDigit_of_mem_zero : ∀ c ∈ ['0'], c.isDigit = true :=
  List.forall_mem_singleton.mpr rfl

theorem decimalDigits_ne_nil (n : Nat) : decimalDigits n ≠ [] := Nat.toDigits_ne_nil

namespace Numeral

/-- The number that a numeral stands for, without its sign. -/
def size (n : Numeral) : ℚ :=
  natOfDigits (n.whole ++ n.fraction.getD []) *
    10 ^ (n.exponent.getD 0 - (n.fraction.getD []).length)

/-- What may follow digits. -/
def Stops (cs : List Char) : Prop := ∀ c ∈ cs.head?, c.isDigit = false

theorem stops_nil : Stops [] := by simp [Stops]

variable {ds cs : List Char}

theorem takeWhile_digits (hds : ∀ c ∈ ds, c.isDigit = true) (hcs : Stops cs) :
    (ds ++ cs).takeWhile Char.isDigit = ds ∧ (ds ++ cs).dropWhile Char.isDigit = cs := by
  rw [List.takeWhile_append_of_pos hds, List.dropWhile_append_of_pos hds]
  cases cs with
  | nil => simp
  | cons c cs =>
    have hc : c.isDigit = false := hcs c rfl
    simp [hc]

theorem scanSign_of_isDigit {c : Char} (hc : c.isDigit = true) (cs : List Char) :
    scanSign (c :: cs) = (false, c :: cs) := by
  unfold scanSign
  split
  · next h =>
    cases h
    cases hc
  · next h =>
    cases h
    cases hc
  · rfl

theorem scanSign_signed {negative : Bool} (hds : ∀ c ∈ ds, c.isDigit = true) (hne : ds ≠ []) :
    scanSign (NumberStyle.signed negative (ds ++ cs)) = (negative, ds ++ cs) := by
  obtain ⟨d, ds, rfl⟩ := List.exists_cons_of_ne_nil hne
  cases negative with
  | true => rfl
  | false => exact scanSign_of_isDigit (hds d List.mem_cons_self) _

/-- A sign and digits, and then what follows. -/
theorem scan_signed (negative : Bool) (hds : ∀ c ∈ ds, c.isDigit = true) (hne : ds ≠ [])
    (hcs : Stops cs) :
    (scan (NumberStyle.signed negative (ds ++ cs))).1 =
      ⟨negative, ds, (scanFraction cs).1, (scanExponent (scanFraction cs).2).1⟩ := by
  obtain ⟨htake, hdrop⟩ := takeWhile_digits hds hcs
  rw [scan, scanSign_signed hds hne]
  simp only [htake, hdrop]

theorem scanFraction_point (hds : ∀ c ∈ ds, c.isDigit = true) (hcs : Stops cs) :
    scanFraction ('.' :: (ds ++ cs)) = (some ds, cs) := by
  obtain ⟨htake, hdrop⟩ := takeWhile_digits hds hcs
  rw [scanFraction, htake, hdrop]

end Numeral

namespace NumberStyle

variable {st : NumberStyle}

theorem stops_exponentText (hmark : st.exponentMark = 'e') (e : Int) :
    Numeral.Stops (st.exponentText e) := by
  intro c hc
  obtain rfl : st.exponentMark = c := by simpa [exponentText] using hc
  rw [hmark]
  rfl

theorem scanFraction_exponentText (hmark : st.exponentMark = 'e') (e : Int) :
    Numeral.scanFraction (st.exponentText e) = (none, st.exponentText e) := by
  rw [exponentText, hmark]
  rfl

theorem scanExponent_exponentText (hmark : st.exponentMark = 'e') (e : Int) :
    (Numeral.scanExponent (st.exponentText e)).1 = some e := by
  obtain ⟨ds, hds⟩ : ∃ ds, ds = List.replicate (st.exponentWidth -
      (decimalDigits e.natAbs).length) '0' ++ decimalDigits e.natAbs := ⟨_, rfl⟩
  have hdigits : ∀ c ∈ ds, c.isDigit = true := by
    rw [hds, List.forall_mem_append]
    exact ⟨fun c hc => isDigit_of_mem_replicate hc, fun c hc => isDigit_of_mem_decimalDigits hc⟩
  have hne : ds.isEmpty = false := by
    rw [List.isEmpty_eq_false_iff, hds]
    exact List.append_ne_nil_of_right_ne_nil _ (decimalDigits_ne_nil _)
  have hvalue : (natOfDigits ds : Int) = e.natAbs := by
    rw [hds, natOfDigits_append, natOfDigits_replicate, natOfDigits_decimalDigits]
    simp
  have htake : ds.takeWhile Char.isDigit = ds := by
    have hall := (Numeral.takeWhile_digits hdigits Numeral.stops_nil).1
    rwa [List.append_nil] at hall
  have htext : st.exponentText e = 'e' :: (if e < 0 then '-' else '+') :: ds := by
    rw [exponentText, hmark, hds]
  rw [htext]
  by_cases hnegative : e < 0
  · have hscan : (Numeral.scanExponent ('e' :: '-' :: ds)).1 = some (-(natOfDigits ds : Int)) := by
      simp [Numeral.scanExponent, Numeral.scanSign, htake, hne]
    rw [if_pos hnegative, hscan, hvalue]
    exact congrArg some (by omega)
  · have hscan : (Numeral.scanExponent ('e' :: '+' :: ds)).1 = some (natOfDigits ds : Int) := by
      simp [Numeral.scanExponent, Numeral.scanSign, htake, hne]
    rw [if_neg hnegative, hscan, hvalue]
    exact congrArg some (by omega)

/-- Digits around a point. -/
theorem scan_point (negative : Bool) {ds es cs : List Char} (hds : ∀ c ∈ ds, c.isDigit = true)
    (hne : ds ≠ []) (hes : ∀ c ∈ es, c.isDigit = true) (hcs : Numeral.Stops cs) :
    (Numeral.scan (signed negative (ds ++ '.' :: (es ++ cs)))).1 =
      ⟨negative, ds, some es, (Numeral.scanExponent cs).1⟩ := by
  have hpoint : Numeral.Stops ('.' :: (es ++ cs)) := by
    intro c hc
    cases hc
    rfl
  rw [Numeral.scan_signed negative hds hne hpoint, Numeral.scanFraction_point hes hcs]

theorem scan_positional {negative : Bool} {d : Decimal} :
    ∃ n, (Numeral.scan (signed negative (positional (decimalDigits d.digits) d.exponent))).1 = n ∧
      n.negative = negative ∧ n.size = d.value ∧ n.isInteger = false ∧ n.hasDigit = true := by
  have hdigits : ∀ c ∈ decimalDigits d.digits, c.isDigit = true :=
    fun c hc => isDigit_of_mem_decimalDigits hc
  have hvalue := natOfDigits_decimalDigits d.digits
  unfold positional
  split
  · next hexponent =>
    obtain ⟨ds, hds⟩ : ∃ ds, ds = decimalDigits d.digits ++ List.replicate d.exponent.toNat '0' :=
      ⟨_, rfl⟩
    have hall : ∀ c ∈ ds, c.isDigit = true := by
      rw [hds, List.forall_mem_append]
      exact ⟨hdigits, fun c hc => isDigit_of_mem_replicate hc⟩
    have hne : ds ≠ [] := hds ▸ List.append_ne_nil_of_left_ne_nil (decimalDigits_ne_nil _) _
    have hscan := scan_point negative hall hne isDigit_of_mem_zero Numeral.stops_nil
    rw [← hds]
    refine ⟨_, hscan, rfl, ?_, rfl, ?_⟩
    · have hwhole : natOfDigits (ds ++ ['0']) = 10 * (10 ^ d.exponent.toNat * d.digits) := by
        rw [natOfDigits_append, hds, natOfDigits_append, hvalue, natOfDigits_replicate,
          List.length_replicate]
        rfl
      have hpower : (10 : ℚ) ^ d.exponent = 10 ^ d.exponent.toNat := by
        rw [← zpow_natCast, Int.toNat_of_nonneg hexponent]
      simp only [Numeral.size, Numeral.scanExponent, Option.getD_some, Option.getD_none, hwhole,
        Decimal.value, hpower]
      norm_num
      ring
    · simp [Numeral.hasDigit]
  · next hexponent =>
    obtain ⟨padded, hpadded⟩ : ∃ padded, padded = List.replicate
        (d.exponent.natAbs + 1 - (decimalDigits d.digits).length) '0' ++ decimalDigits d.digits :=
      ⟨_, rfl⟩
    have hall : ∀ c ∈ padded, c.isDigit = true := by
      rw [hpadded, List.forall_mem_append]
      exact ⟨fun c hc => isDigit_of_mem_replicate hc, hdigits⟩
    have hlength : d.exponent.natAbs < padded.length := by
      rw [hpadded, List.length_append, List.length_replicate]
      omega
    have hpaddedValue : natOfDigits padded = d.digits := by
      rw [hpadded, natOfDigits_append, natOfDigits_replicate, hvalue, Nat.mul_zero, Nat.zero_add]
    have hne : padded.take (padded.length - d.exponent.natAbs) ≠ [] := by
      rw [ne_eq, List.take_eq_nil_iff]
      rintro (h | rfl)
      · omega
      · exact absurd hlength (Nat.not_lt_zero _)
    have hfraction : ∀ c ∈ padded.drop (padded.length - d.exponent.natAbs), c.isDigit = true :=
      fun c hc => hall c (List.mem_of_mem_drop hc)
    have hscan := scan_point negative (fun c hc => hall c (List.mem_of_mem_take hc)) hne hfraction
      Numeral.stops_nil
    rw [List.append_nil] at hscan
    simp only [← hpadded]
    refine ⟨_, hscan, rfl, ?_, rfl, ?_⟩
    · simp only [Numeral.size, Numeral.scanExponent, Option.getD_some, Option.getD_none,
        List.take_append_drop, hpaddedValue, Decimal.value, List.length_drop]
      congr 2
      omega
    · simpa [Numeral.hasDigit] using Or.inl hne

/-- A float is written with a point or with an exponent, and its digits are read back. -/
theorem scan_decimal (hmark : st.exponentMark = 'e') (negative : Bool) (d : Decimal) :
    ∃ n, (Numeral.scan (signed negative (st.decimal d))).1 = n ∧ n.negative = negative ∧
      n.size = d.value ∧ n.isInteger = false ∧ n.hasDigit = true := by
  have hdigits : ∀ c ∈ decimalDigits d.digits, c.isDigit = true :=
    fun c hc => isDigit_of_mem_decimalDigits hc
  have hvalue := natOfDigits_decimalDigits d.digits
  unfold decimal
  dsimp only
  split
  · next hzero =>
    refine ⟨_, scan_point negative isDigit_of_mem_zero (by decide) isDigit_of_mem_zero
      Numeral.stops_nil, rfl, ?_, rfl, rfl⟩
    rw [Decimal.value, hzero]
    norm_num [Numeral.size, natOfDigits, digitValue]
  split
  · exact scan_positional
  split
  · next c hc =>
    rw [hc] at hdigits hvalue
    have hscan := Numeral.scan_signed negative hdigits (List.cons_ne_nil _ _)
      (stops_exponentText hmark (d.exponent + (decimalDigits d.digits).length - 1))
    rw [scanFraction_exponentText hmark, scanExponent_exponentText hmark] at hscan
    refine ⟨_, hscan, rfl, ?_, rfl, rfl⟩
    simp [Numeral.size, hvalue, hc, Decimal.value]
  · next c rest _ hc =>
    rw [hc] at hdigits hvalue
    obtain ⟨hfirst, hrest⟩ := List.forall_mem_cons.mp hdigits
    have hscan := scan_point negative (List.forall_mem_singleton.mpr hfirst)
      (List.cons_ne_nil _ _) hrest
      (stops_exponentText hmark (d.exponent + (decimalDigits d.digits).length - 1))
    rw [scanExponent_exponentText hmark] at hscan
    refine ⟨_, hscan, rfl, ?_, rfl, rfl⟩
    simp only [Numeral.size, Option.getD_some, List.singleton_append, hvalue, hc, List.length_cons,
      Decimal.value]
    congr 2
    push_cast
    omega
  · next hnil => exact absurd hnil (decimalDigits_ne_nil _)

theorem scan_integerDigits (n : Int) : ∃ m, (Numeral.scan (integerDigits n)).1 = m ∧
    m.toInt = n ∧ m.isInteger = true ∧ m.hasDigit = true := by
  have hscan := Numeral.scan_signed (decide (n < 0)) (fun c hc => isDigit_of_mem_decimalDigits hc)
    (decimalDigits_ne_nil n.natAbs) Numeral.stops_nil
  rw [List.append_nil] at hscan
  refine ⟨_, hscan, ?_, rfl, ?_⟩
  · simp only [Numeral.toInt, natOfDigits_decimalDigits, decide_eq_true_iff]
    split <;> omega
  · simp [Numeral.hasDigit, decimalDigits_ne_nil]

/-- A finite float is told by its sign and by the number that its digits stand for. -/
theorem finite_inj (hmark : st.exponentMark = 'e') {negative negative' : Bool} {b b' : Binary}
    (hb : b.Legal) (hb' : b'.Legal)
    (h : signed negative (st.decimal b.shortest) = signed negative' (st.decimal b'.shortest)) :
    negative = negative' ∧ b = b' := by
  obtain ⟨n, hn, hnegative, hsize, -⟩ := scan_decimal hmark negative b.shortest
  obtain ⟨n', hn', hnegative', hsize', -⟩ := scan_decimal hmark negative' b'.shortest
  obtain rfl : n = n' := by rw [← hn, ← hn', h]
  exact ⟨hnegative.symm.trans hnegative',
    Binary.eq_of_shortest_value hb hb' (hsize.symm.trans hsize')⟩

end NumberStyle

namespace Json

/-- How a value without parts is written: without digits, with digits only, or with a point or an
exponent. -/
inductive WordKind where
  | letters
  | integer
  | decimal
deriving DecidableEq

def WordKind.of (cs : List Char) : WordKind :=
  let n := (Numeral.scan cs).1
  if n.hasDigit then if n.isInteger then integer else decimal else letters

/-- The values that are written as a word of letters. -/
inductive Word : Json → String → Prop
  | null : Word .null "null"
  | true : Word (.bool true) "true"
  | false : Word (.bool false) "false"
  | infinity {x : Float} : FloatShape.ofFloat x = .infinite false → Word (.float x) "Infinity"
  | negativeInfinity {x : Float} : FloatShape.ofFloat x = .infinite true →
      Word (.float x) "-Infinity"
  | notANumber {x : Float} : FloatShape.ofFloat x = .notANumber → Word (.float x) "NaN"

variable {v w : Json}

theorem Word.chars_eq {s : String} (h : Word v s) : v.chars = s.toList := by
  cases h with
  | infinity hx => rw [chars, NumberStyle.float, hx]; rfl
  | negativeInfinity hx => rw [chars, NumberStyle.float, hx]; rfl
  | notANumber hx => rw [chars, NumberStyle.float, hx]; rfl
  | _ => rw [chars]

theorem Word.inj {s s' : String} (hv : Word v s) (hw : Word w s') (h : s = s') : v = w := by
  have hfloat : ∀ {x y : Float}, FloatShape.ofFloat x = FloatShape.ofFloat y →
      Json.float x = Json.float y := fun h => congrArg Json.float (FloatShape.ofFloat_injective h)
  cases hv with
  | null =>
    cases hw with
    | null => rfl
    | _ => exact absurd h (by decide)
  | true =>
    cases hw with
    | true => rfl
    | _ => exact absurd h (by decide)
  | false =>
    cases hw with
    | false => rfl
    | _ => exact absurd h (by decide)
  | infinity hx =>
    cases hw with
    | infinity hy => exact hfloat (hx.trans hy.symm)
    | _ => exact absurd h (by decide)
  | negativeInfinity hx =>
    cases hw with
    | negativeInfinity hy => exact hfloat (hx.trans hy.symm)
    | _ => exact absurd h (by decide)
  | notANumber hx =>
    cases hw with
    | notANumber hy => exact hfloat (hx.trans hy.symm)
    | _ => exact absurd h (by decide)

inductive Spelled : Json → WordKind → Prop
  | letters {v : Json} {s : String} : Word v s → Spelled v .letters
  | integer (n : Int) : Spelled (.int n) .integer
  | decimal {x : Float} {negative : Bool} {size : Binary} :
      FloatShape.ofFloat x = .finite negative size → Spelled (.float x) .decimal

theorem chars_finite {x : Float} {negative : Bool} {size : Binary}
    (h : FloatShape.ofFloat x = .finite negative size) :
    (Json.float x).chars = NumberStyle.signed negative (numberStyle.decimal size.shortest) := by
  rw [chars, NumberStyle.float, h]

theorem Spelled.kind_eq {kind : WordKind} (h : Spelled v kind) : WordKind.of v.chars = kind := by
  cases h with
  | letters hs =>
    rw [hs.chars_eq]
    cases hs <;> rfl
  | integer n =>
    obtain ⟨m, hm, -, hinteger, hdigit⟩ := NumberStyle.scan_integerDigits n
    simp only [chars, WordKind.of, hm, hinteger, hdigit, if_true]
  | @decimal _ negative size hx =>
    obtain ⟨m, hm, -, -, hinteger, hdigit⟩ :=
      @NumberStyle.scan_decimal numberStyle rfl negative size.shortest
    simp only [chars_finite hx, WordKind.of, hm, hinteger, hdigit, if_true, Bool.false_eq_true,
      if_false]

theorem Plain.spelled (h : v.Plain) : ∃ kind, Spelled v kind := by
  cases v with
  | null => exact ⟨_, .letters .null⟩
  | bool b =>
    cases b with
    | false => exact ⟨_, .letters .false⟩
    | true => exact ⟨_, .letters .true⟩
  | int n => exact ⟨_, .integer n⟩
  | float x =>
    cases hx : FloatShape.ofFloat x with
    | finite negative size => exact ⟨_, .decimal hx⟩
    | infinite negative =>
      cases negative with
      | false => exact ⟨_, .letters (.infinity hx)⟩
      | true => exact ⟨_, .letters (.negativeInfinity hx)⟩
    | notANumber => exact ⟨_, .letters (.notANumber hx)⟩
  | str s => exact h.elim
  | arr vs => exact h.elim
  | obj fs => exact h.elim

/-- Values without parts are told by their texts. -/
theorem Plain.eq_of_chars (hv : v.Plain) (hw : w.Plain) (h : v.chars = w.chars) : v = w := by
  obtain ⟨kind, hv⟩ := hv.spelled
  obtain ⟨kind', hw⟩ := hw.spelled
  obtain rfl : kind = kind' := by rw [← hv.kind_eq, ← hw.kind_eq, h]
  cases hv with
  | letters hs =>
    cases hw with
    | letters hs' =>
      exact hs.inj hs' (String.toList_inj.mp (hs.chars_eq.symm.trans (h.trans hs'.chars_eq)))
  | integer n =>
    cases hw with
    | integer m =>
      obtain ⟨k, hk, hn, -⟩ := NumberStyle.scan_integerDigits n
      obtain ⟨k', hk', hm, -⟩ := NumberStyle.scan_integerDigits m
      obtain rfl : k = k' := by rw [← hk, ← hk', ← chars, ← chars, h]
      rw [← hn, ← hm]
  | decimal hx =>
    cases hw with
    | decimal hy =>
      rw [chars_finite hx, chars_finite hy] at h
      obtain ⟨rfl, rfl⟩ := NumberStyle.finite_inj rfl (FloatShape.legal_of_ofFloat hx)
        (FloatShape.legal_of_ofFloat hy) h
      exact congrArg Json.float (FloatShape.ofFloat_injective (hx.trans hy.symm))

end Json

end ScriptFlow
