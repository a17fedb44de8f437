import Mathlib

/-! Floats that are natural numbers. Below `2 ^ 53` a natural number has a float of its own, and
sums, products, differences and quotients that are natural numbers again come out without an error.
-/

namespace ScriptFlow

open Float.Model UnpackedFloat

/-- The parts of the float of a natural number: 53 digits, the first of which is one. -/
def wholeParts (n : Nat) : UnpackedFloat :=
  if h : n = 0 then .zero .positive
  else .finite .positive (n * 2 ^ (52 - n.log2)) (n.log2 - 52)
    (Nat.mul_pos (Nat.pos_of_ne_zero h) (Nat.two_pow_pos _))

section

variable {a b n m : Nat} {e : Int}

theorem wholeParts_of_ne_zero (hn : n ≠ 0) : wholeParts n =
    .finite .positive (n * 2 ^ (52 - n.log2)) (n.log2 - 52)
      (Nat.mul_pos (Nat.pos_of_ne_zero hn) (Nat.two_pow_pos _)) :=
  dif_neg hn

theorem log2_mul_two_pow (hn : n ≠ 0) (k : Nat) : (n * 2 ^ k).log2 = n.log2 + k := by
  have hlow := Nat.log2_self_le hn
  have hhigh := @Nat.lt_log2_self n
  refine (Nat.log2_eq_iff (Nat.mul_ne_zero hn (Nat.two_pow_pos k).ne')).mpr ⟨?_, ?_⟩
  · rw [Nat.pow_add]
    exact Nat.mul_le_mul_right _ hlow
  · rw [Nat.add_right_comm, Nat.pow_add]
    exact Nat.mul_lt_mul_of_pos_right hhigh (Nat.two_pow_pos k)

theorem log2_le_of_lt (hsize : n < 2 ^ 53) : n.log2 ≤ 52 := by
  rcases Nat.eq_zero_or_pos n with rfl | hpos
  · exact Nat.zero_le _
  · have hlog := (Nat.log2_lt hpos.ne').mpr hsize
    omega

theorem log2_add_le (ha : a ≠ 0) (hb : b ≠ 0) : a.log2 + b.log2 ≤ (a * b).log2 := by
  refine (Nat.le_log2 (Nat.mul_ne_zero ha hb)).mpr ?_
  rw [Nat.pow_add]
  exact Nat.mul_le_mul (Nat.log2_self_le ha) (Nat.log2_self_le hb)

theorem log2_mul_le (ha : a ≠ 0) (hb : b ≠ 0) : (a * b).log2 ≤ a.log2 + b.log2 + 1 := by
  have hlt : a * b < 2 ^ (a.log2 + 1 + (b.log2 + 1)) := by
    rw [Nat.pow_add]
    exact Nat.mul_lt_mul'' Nat.lt_log2_self Nat.lt_log2_self
  have hlog := (Nat.log2_lt (Nat.mul_ne_zero ha hb)).mpr hlt
  omega

/-- A natural number is kept in 53 digits, whatever zeros it comes with. -/
theorem targetExponent_exact (hn : n ≠ 0) (hsize : n < 2 ^ 53) (he : e ≤ 0)
    (hm : m = n * 2 ^ (-e).toNat) :
    Format.binary64.targetExponent (totalExponent m e) = n.log2 - 52 := by
  have hlog := log2_le_of_lt hsize
  rw [hm, totalExponent, log2_mul_two_pow hn]
  simp only [Format.targetExponent, Format.minExponent, Format.mantissaBits]
  omega

/-- Zeros are shifted out without a trace. -/
theorem shiftRight_mul_two_pow (m k : Nat) :
    (⟨m * 2 ^ k, false, false⟩ : ExtendedMantissa) >>> k = ⟨m, false, false⟩ := by
  induction k generalizing m with
  | zero =>
    rw [Nat.pow_zero, Nat.mul_one]
    rfl
  | succ k ih =>
    have hshift : (⟨m * 2 ^ (k + 1), false, false⟩ : ExtendedMantissa) >>> (k + 1) =
        ((⟨m * 2 * 2 ^ k, false, false⟩ : ExtendedMantissa) >>> k).shiftRightOne := by
      rw [Nat.mul_assoc, ← Nat.pow_succ']
      rfl
    rw [hshift, ih]
    simp [ExtendedMantissa.shiftRightOne]

theorem shiftToTargetExponent_exact (hn : n ≠ 0) (hsize : n < 2 ^ 53) (he : e + 52 ≤ n.log2)
    (hm : m = n * 2 ^ (-e).toNat) : shiftToTargetExponent .binary64 m e .exact =
      ((⟨n * 2 ^ (52 - n.log2), false, false⟩ : ExtendedMantissa), (n.log2 : Int) - 52) := by
  have hlog := log2_le_of_lt hsize
  have hdigits : m = n * 2 ^ (52 - n.log2) * 2 ^ ((n.log2 : Int) - 52 - e).toNat := by
    rw [hm, Nat.mul_assoc, ← Nat.pow_add]
    congr 2
    omega
  rw [shiftToTargetExponent, targetExponent_exact hn hsize (by omega) hm, shiftToExponent, hdigits]
  refine Prod.ext (shiftRight_mul_two_pow _ _) ?_
  simp only
  omega

theorem roundWithAccuracy_exact (hn : n ≠ 0) (hsize : n < 2 ^ 53) (he : e + 52 ≤ n.log2)
    (hm : m = n * 2 ^ (-e).toNat) :
    roundWithAccuracy .binary64 .positive m e .exact = wholeParts n := by
  have hlog := log2_le_of_lt hsize
  have hagain : n * 2 ^ (52 - n.log2) = n * 2 ^ (-((n.log2 : Int) - 52)).toNat := by
    congr 2
    omega
  have hne : n * 2 ^ (52 - n.log2) ≠ 0 := Nat.mul_ne_zero hn (Nat.two_pow_pos _).ne'
  have hfirst := shiftToTargetExponent_exact hn hsize he hm
  have hsecond := shiftToTargetExponent_exact hn hsize (by omega) hagain
  simp only [roundWithAccuracy, hfirst, ExtendedMantissa.roundedMantissa,
    ExtendedMantissa.accuracy, Accuracy.roundToNearestEven, hsecond, wholeParts, hn, hne,
    dite_false]

theorem round_exact (hn : n ≠ 0) (hsize : n < 2 ^ 53) (he : e ≤ 0)
    (hm : m = n * 2 ^ (-e).toNat) :
    UnpackedFloat.round .binary64 .positive m e = wholeParts n := by
  have hlog := log2_le_of_lt hsize
  rw [UnpackedFloat.round]
  simp only [targetExponent_exact hn hsize he hm, decreaseExponent]
  refine roundWithAccuracy_exact hn hsize (by omega) ?_
  rw [hm, Nat.shiftLeft_eq, Nat.mul_assoc, ← Nat.pow_add]
  congr 2
  omega

theorem normalize_exact (hsize : n < 2 ^ 53) (he : e ≤ 0) {z : Int}
    (hz : z = (n * 2 ^ (-e).toNat : Nat)) :
    UnpackedFloat.normalize .binary64 z e .positive = wholeParts n := by
  subst hz
  by_cases hn : n = 0
  · subst hn
    rw [Nat.zero_mul]
    rfl
  · have hpos : 0 < n * 2 ^ (-e).toNat :=
      Nat.mul_pos (Nat.pos_of_ne_zero hn) (Nat.two_pow_pos _)
    have hcompare : compare ((n * 2 ^ (-e).toNat : Nat) : Int) 0 = .gt := by
      rw [Int.compare_eq_gt]
      exact_mod_cast hpos
    rw [UnpackedFloat.normalize, hcompare]
    exact round_exact hn hsize he (Int.toNat_natCast _)

/-- The digits of a natural number, brought down to a smaller exponent. -/
theorem decreaseExponent_exact (hlog : n.log2 ≤ 52) (he : e ≤ n.log2 - 52) :
    decreaseExponent (n * 2 ^ (52 - n.log2)) (n.log2 - 52) e = (n * 2 ^ (-e).toNat, e) := by
  refine Prod.ext ?_ ?_ <;> simp only [decreaseExponent]
  · rw [Nat.shiftLeft_eq, Nat.mul_assoc, ← Nat.pow_add]
    congr 2
    omega
  · omega

/-- The digits of a quotient: those of the natural number, and zeros. -/
theorem divCore_exact (ha : a ≠ 0) (hb : b ≠ 0) (hsize : a * b < 2 ^ 53) :
    divCore .binary64 (a * b * 2 ^ (52 - (a * b).log2)) ((a * b).log2 - 52)
      (b * 2 ^ (52 - b.log2)) (b.log2 - 52) =
        (a * 2 ^ (53 + b.log2 - (a * b).log2), ((a * b).log2 : Int) - b.log2 - 53, .exact) := by
  have hab := Nat.mul_ne_zero ha hb
  have hlog := log2_le_of_lt hsize
  have hlow := log2_add_le ha hb
  have hhigh := log2_mul_le ha hb
  have htarget : min (((a * b).log2 : Int) - 52 - (b.log2 - 52)) (Format.binary64.targetExponent
      (totalExponent (a * b * 2 ^ (52 - (a * b).log2)) ((a * b).log2 - 52) -
        totalExponent (b * 2 ^ (52 - b.log2)) (b.log2 - 52))) =
      ((a * b).log2 : Int) - b.log2 - 53 := by
    rw [totalExponent, totalExponent, log2_mul_two_pow hab, log2_mul_two_pow hb]
    simp only [Format.targetExponent, Format.minExponent, Format.mantissaBits]
    omega
  have hshift : (((a * b).log2 : Int) - 52 - (b.log2 - 52) -
      (((a * b).log2 : Int) - b.log2 - 53)).toNat = 53 := by omega
  have hquotient : (a * b * 2 ^ (52 - (a * b).log2)) <<< 53 =
      a * 2 ^ (53 + b.log2 - (a * b).log2) * (b * 2 ^ (52 - b.log2)) := by
    rw [Nat.shiftLeft_eq, Nat.mul_assoc, ← Nat.pow_add, Nat.mul_mul_mul_comm, ← Nat.pow_add]
    congr 2
    omega
  have hpos : 0 < b * 2 ^ (52 - b.log2) :=
    Nat.mul_pos (Nat.pos_of_ne_zero hb) (Nat.two_pow_pos _)
  simp only [divCore, htarget, hshift, hquotient, Nat.mul_mod_left, Nat.mul_div_cancel _ hpos,
    accuracyOfFraction, if_true]

end

section

variable {n : Nat}

theorem exponentBias_binary64 : Format.binary64.exponentBias = 1023 := by decide

/-- The bits of a natural number. The first digit is left out of them. -/
theorem pack_wholeParts (hn : n ≠ 0) (hsize : n < 2 ^ 53) :
    UnpackedFloat.pack .binary64 (wholeParts n) = packComponents .binary64 .positive
      (BitVec.ofNat 11 (n.log2 + 1023)) (BitVec.ofNat 52 (n * 2 ^ (52 - n.log2))) := by
  have hlog := log2_le_of_lt hsize
  have hdigits : (n * 2 ^ (52 - n.log2)).log2 = 52 := by
    rw [log2_mul_two_pow hn]
    omega
  have hexponent : (n.log2 - 52 + (1023 : Nat) + (52 : Nat) : Int).toNat = n.log2 + 1023 := by
    omega
  simp only [wholeParts, hn, dite_false, UnpackedFloat.pack, hdigits, exponentBias_binary64,
    hexponent]
  rw [if_neg (by omega)]
  rfl

/-- The first digit is put back before the others. -/
theorem toNat_one_append (hn : n ≠ 0) (hsize : n < 2 ^ 53) :
    (1#1 ++ BitVec.ofNat 52 (n * 2 ^ (52 - n.log2))).toNat = n * 2 ^ (52 - n.log2) := by
  have hlog := log2_le_of_lt hsize
  have hdigits : (n * 2 ^ (52 - n.log2)).log2 = 52 := by
    rw [log2_mul_two_pow hn]
    omega
  obtain ⟨hlow, hhigh⟩ := (Nat.log2_eq_iff
    (Nat.mul_ne_zero hn (Nat.two_pow_pos (52 - n.log2)).ne')).mp hdigits
  rw [BitVec.toNat_append, ← Nat.shiftLeft_add_eq_or_of_lt (BitVec.isLt _)]
  simp only [BitVec.toNat_ofNat, Nat.shiftLeft_eq]
  omega

/-- The bits of a natural number stand for its parts. -/
theorem unpack_pack_wholeParts (hsize : n < 2 ^ 53) :
    UnpackedFloat.unpack .binary64 (UnpackedFloat.pack .binary64 (wholeParts n)) =
      wholeParts n := by
  by_cases hn : n = 0
  · subst hn
    rfl
  have hlog := log2_le_of_lt hsize
  have hbits : (BitVec.ofNat 11 (n.log2 + 1023)).toNat = n.log2 + 1023 := by
    rw [BitVec.toNat_ofNat]
    omega
  have hnonzero : BitVec.ofNat 11 (n.log2 + 1023) ≠ 0#11 := by
    intro h
    rw [h, BitVec.toNat_ofNat] at hbits
    omega
  have hfinite : BitVec.ofNat 11 (n.log2 + 1023) ≠ -1#11 := by
    intro h
    rw [h] at hbits
    have hlast : (-1#11).toNat = 2047 := rfl
    omega
  rw [pack_wholeParts hn hsize, UnpackedFloat.unpack]
  simp only [unpackExponent_packComponents, unpackMantissa_packComponents,
    unpackSign_packComponents, Sign.ofBitVec_toBitVec]
  rw [if_neg hfinite, if_neg hnonzero]
  simp only [wholeParts_of_ne_zero hn, exponentBias_binary64, hbits, toNat_one_append hn hsize]
  rw [finite.injEq]
  exact ⟨rfl, rfl, by omega⟩

end

/-- The float is the natural number. -/
def IsWhole (x : Float) (n : Nat) : Prop := x.toModel.unpack = wholeParts n

namespace IsWhole

variable {x y : Float} {a b n : Nat}

theorem isFinite (h : IsWhole x n) : x.isFinite = true := by
  have hx : x.isFinite = x.toModel.unpack.isFinite := rfl
  rw [hx, h, wholeParts]
  split <;> rfl

theorem of_pack {f : UnpackedFloat} (hsize : n < 2 ^ 53) (hf : f = wholeParts n) :
    IsWhole ⟨Float.Model.pack f⟩ n := by
  rw [hf]
  exact unpack_pack_wholeParts hsize

theorem add (hx : IsWhole x a) (hy : IsWhole y b) (hsize : a + b < 2 ^ 53) :
    IsWhole (x + y) (a + b) := by
  refine of_pack (f := UnpackedFloat.add .binary64 x.toModel.unpack y.toModel.unpack) hsize ?_
  rw [hx, hy]
  by_cases ha : a = 0
  · subst ha
    by_cases hb : b = 0
    · subst hb
      rfl
    · simp [wholeParts, hb, UnpackedFloat.add]
  by_cases hb : b = 0
  · subst hb
    simp [wholeParts, ha, UnpackedFloat.add]
  have hloga : a.log2 ≤ 52 := log2_le_of_lt (by omega)
  have hlogb : b.log2 ≤ 52 := log2_le_of_lt (by omega)
  simp only [wholeParts_of_ne_zero ha, wholeParts_of_ne_zero hb, UnpackedFloat.add]
  rw [decreaseExponent_exact hloga (min_le_left _ _),
    decreaseExponent_exact hlogb (min_le_right _ _)]
  refine normalize_exact hsize (by omega) ?_
  simp only [Sign.apply]
  push_cast
  ring

theorem sub (hx : IsWhole x a) (hy : IsWhole y b) (hab : b ≤ a) (hsize : a < 2 ^ 53) :
    IsWhole (x - y) (a - b) := by
  refine of_pack (f := UnpackedFloat.sub .binary64 x.toModel.unpack y.toModel.unpack)
    (by omega) ?_
  rw [hx, hy]
  by_cases hb : b = 0
  · subst hb
    by_cases ha : a = 0
    · subst ha
      rfl
    · simp [wholeParts, ha, UnpackedFloat.sub]
  have ha : a ≠ 0 := by omega
  have hloga := log2_le_of_lt hsize
  have hlogb : b.log2 ≤ 52 := log2_le_of_lt (by omega)
  simp only [wholeParts_of_ne_zero ha, wholeParts_of_ne_zero hb, UnpackedFloat.sub]
  rw [decreaseExponent_exact hloga (min_le_left _ _),
    decreaseExponent_exact hlogb (min_le_right _ _)]
  refine normalize_exact (by omega) (by omega) ?_
  simp only [Sign.apply]
  push_cast [hab]
  ring

theorem mul (hx : IsWhole x a) (hy : IsWhole y b) (hsize : a * b < 2 ^ 53) :
    IsWhole (x * y) (a * b) := by
  refine of_pack (f := UnpackedFloat.mul .binary64 x.toModel.unpack y.toModel.unpack) hsize ?_
  rw [hx, hy]
  by_cases ha : a = 0
  · subst ha
    by_cases hb : b = 0
    · subst hb
      rfl
    · simp only [wholeParts, hb, dite_true, dite_false, UnpackedFloat.mul, Nat.zero_mul]
      rfl
  by_cases hb : b = 0
  · subst hb
    simp only [wholeParts, ha, dite_true, dite_false, UnpackedFloat.mul, Nat.mul_zero]
    rfl
  have hle := log2_add_le ha hb
  have hlog := log2_le_of_lt hsize
  simp only [wholeParts_of_ne_zero ha, wholeParts_of_ne_zero hb, UnpackedFloat.mul]
  refine roundWithAccuracy_exact (Nat.mul_ne_zero ha hb) hsize (by omega) ?_
  rw [Nat.mul_mul_mul_comm, ← Nat.pow_add]
  congr 2
  omega

/-- A quotient without a rest. -/
theorem div (hx : IsWhole x (a * b)) (hy : IsWhole y b) (hb : b ≠ 0) (hsize : a * b < 2 ^ 53) :
    IsWhole (x / y) a := by
  have hle : a ≤ a * b := Nat.le_mul_of_pos_right a (Nat.pos_of_ne_zero hb)
  refine of_pack (f := UnpackedFloat.div .binary64 x.toModel.unpack y.toModel.unpack)
    (by omega) ?_
  rw [hx, hy]
  by_cases ha : a = 0
  · subst ha
    simp only [wholeParts, hb, dite_true, dite_false, UnpackedFloat.div, Nat.zero_mul]
    rfl
  have hlog := log2_le_of_lt hsize
  have hlow := log2_add_le ha hb
  have hhigh := log2_mul_le ha hb
  simp only [wholeParts_of_ne_zero (Nat.mul_ne_zero ha hb), wholeParts_of_ne_zero hb,
    UnpackedFloat.div]
  rw [divCore_exact ha hb hsize]
  refine roundWithAccuracy_exact ha (by omega) (by dsimp only; omega) ?_
  dsimp only
  congr 2
  omega

theorem toFloat (hsize : n < 2 ^ 53) : IsWhole n.toUInt64.toFloat n := by
  refine of_pack (f := UnpackedFloat.ofUInt64 .binary64 n.toUInt64) hsize ?_
  have hn : n.toUInt64.toNat = n := by
    rw [Nat.toUInt64_eq, UInt64.toNat_ofNat']
    omega
  rw [UnpackedFloat.ofUInt64, UnpackedFloat.ofNat, UnpackedFloat.ofInt, hn]
  exact normalize_exact hsize le_rfl (by simp)

/-- A numeral is read as a number times a power of ten, here the bits of `1.0`. -/
theorem ofNat (hsize : n < 2 ^ 53) : IsWhole (Float.ofNat n) n := by
  have hone : IsWhole (Float.ofBits 4607182418800017408) 1 := rfl
  have hfloat : Float.ofNat n = n.toUInt64.toFloat * Float.ofBits 4607182418800017408 := by
    rw [Float.ofNat]
    simp only [OfScientific.ofScientific, Float.ofScientific]
    rw [dif_pos ⟨hsize, by decide⟩]
    rfl
  have hproduct := (toFloat hsize).mul hone (by omega)
  rwa [← hfloat, Nat.mul_one] at hproduct

end IsWhole

end ScriptFlow
