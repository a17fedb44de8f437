import ScriptFlow.Decimal.Shortest
import Mathlib.Algebra.Order.Field.Rat
import Mathlib.Tactic.Linarith
import Mathlib.Tactic.Positivity

/-! The shortest digits of a float tell the float. They stand for a number that reads back as it: on
the finest of the grids there always is one, since its points are closer than the ends of the interval
of a float are to the float. And no number reads back as two floats. -/

namespace ScriptFlow

/-- The number that a decimal stands for. -/
def Decimal.value (d : Decimal) : ℚ := d.digits * 10 ^ d.exponent

theorem twoTo_eq (n : Nat) : twoTo n = 2 ^ n := rfl

theorem tenTo_eq (n : Nat) : tenTo n = 10 ^ n := rfl

namespace Binary

/-- What the bits of a finite float stand for: 53 bits, the first of which is one except at the least
exponent. The neighbour below is nearer where the exponent is less there. -/
structure Legal (b : Binary) : Prop where
  mantissa_lt : b.mantissa < 2 ^ 53
  least : -1074 ≤ b.exponent
  greatest : b.exponent ≤ 971
  full : b.exponent ≠ -1074 → 2 ^ 52 ≤ b.mantissa
  narrow : b.narrowBelow = true ↔ b.mantissa = 2 ^ 52 ∧ b.exponent ≠ -1074

theorem Legal.eq_zero {b : Binary} (hb : b.Legal) (h : b.mantissa = 0) : b = ⟨0, -1074, false⟩ := by
  have hfull := hb.full
  have hnarrow := hb.narrow
  obtain ⟨mantissa, exponent, narrowBelow⟩ := b
  obtain rfl : mantissa = 0 := h
  have hexponent : exponent = -1074 := by
    by_contra hne
    have hle : 2 ^ 52 ≤ 0 := hfull hne
    omega
  obtain rfl : narrowBelow = false := by simpa using hnarrow
  rw [hexponent]

/-- A quarter of the distance to the neighbour above. -/
def quarter (b : Binary) : ℚ := 2 ^ (b.exponent - 2)

/-- The quarters between a float and the least number that reads back as it. -/
def below (b : Binary) : Nat := if b.narrowBelow then 1 else 2

/-- The number reads back as the float. -/
def Covers (b : Binary) (x : ℚ) : Prop :=
  if b.mantissa % 2 = 0 then
    (4 * b.mantissa - b.below) * b.quarter ≤ x ∧ x ≤ (4 * b.mantissa + 2) * b.quarter
  else (4 * b.mantissa - b.below) * b.quarter < x ∧ x < (4 * b.mantissa + 2) * b.quarter

variable {b b' : Binary} {grid : Int} {x : ℚ}

theorem quarter_pos (b : Binary) : 0 < b.quarter := zpow_pos (by norm_num) _

/-- Natural numbers of two scales are compared without fractions. -/
theorem exists_scale (b : Binary) (grid : Int) : ∃ D : ℚ, 0 < D ∧
    (b.scaleUp grid : ℚ) = b.quarter * D ∧ (b.scaleDown grid : ℚ) = 10 ^ grid * D := by
  have htwo : (2 : ℚ) ^ (b.exponent - 2) * 2 ^ (2 - b.exponent).toNat =
      2 ^ (b.exponent - 2).toNat := by
    rw [← zpow_natCast, ← zpow_natCast, ← zpow_add₀ (by norm_num)]
    congr 1
    omega
  have hten : (10 : ℚ) ^ grid * 10 ^ (-grid).toNat = 10 ^ grid.toNat := by
    rw [← zpow_natCast, ← zpow_natCast, ← zpow_add₀ (by norm_num)]
    congr 1
    omega
  refine ⟨2 ^ (2 - b.exponent).toNat * 10 ^ (-grid).toNat, by positivity, ?_, ?_⟩
  · rw [quarter, ← mul_assoc, htwo, scaleUp, twoTo_eq, tenTo_eq]
    push_cast
    rfl
  · rw [mul_left_comm, hten, scaleDown, twoTo_eq, tenTo_eq]
    push_cast
    rfl

theorem readsBack_eq (b : Binary) (grid : Int) (d : Nat) : b.readsBack grid d =
    if b.mantissa % 2 = 0 then
      decide ((4 * b.mantissa - b.below) * b.scaleUp grid ≤ d * b.scaleDown grid) &&
        decide (d * b.scaleDown grid ≤ (4 * b.mantissa + 2) * b.scaleUp grid)
    else
      decide ((4 * b.mantissa - b.below) * b.scaleUp grid < d * b.scaleDown grid) &&
        decide (d * b.scaleDown grid < (4 * b.mantissa + 2) * b.scaleUp grid) := rfl

theorem below_le_two (b : Binary) : b.below ≤ 2 := by
  unfold below
  split <;> omega

/-- The digits on a grid read back as a float if the number that they stand for does. -/
theorem readsBack_iff (hb : b.mantissa ≠ 0) {d : Nat} :
    b.readsBack grid d = true ↔ b.Covers (d * 10 ^ grid) := by
  obtain ⟨D, hD, hup, hdown⟩ := b.exists_scale grid
  have hbelow := b.below_le_two
  have hlow : (4 * b.mantissa - b.below : ℚ) = (4 * b.mantissa - b.below : Nat) := by
    rw [Nat.cast_sub (by omega)]
    push_cast
    rfl
  have hhigh : (4 * b.mantissa + 2 : ℚ) = (4 * b.mantissa + 2 : Nat) := by
    push_cast
    rfl
  have hside : ∀ p : Nat, ((p * b.scaleUp grid : Nat) : ℚ) = p * b.quarter * D := by
    intro p
    rw [Nat.cast_mul, hup, mul_assoc]
  have hpoint : ((d * b.scaleDown grid : Nat) : ℚ) = d * 10 ^ grid * D := by
    rw [Nat.cast_mul, hdown, mul_assoc]
  rw [readsBack_eq, Covers, hlow, hhigh]
  by_cases heven : b.mantissa % 2 = 0
  · rw [if_pos heven, if_pos heven, Bool.and_eq_true, decide_eq_true_iff, decide_eq_true_iff,
      ← Nat.cast_le (α := ℚ), ← Nat.cast_le (α := ℚ), hpoint, hside, hside,
      mul_le_mul_iff_left₀ hD, mul_le_mul_iff_left₀ hD]
  · rw [if_neg heven, if_neg heven, Bool.and_eq_true, decide_eq_true_iff, decide_eq_true_iff,
      ← Nat.cast_lt (α := ℚ), ← Nat.cast_lt (α := ℚ), hpoint, hside, hside,
      mul_lt_mul_iff_left₀ hD, mul_lt_mul_iff_left₀ hD]

/-! No number reads back as two floats. -/

theorem Covers.low_le (h : b.Covers x) : (4 * b.mantissa - b.below) * b.quarter ≤ x := by
  unfold Covers at h
  split at h
  · exact h.1
  · exact h.1.le

theorem Covers.le_high (h : b.Covers x) : x ≤ (4 * b.mantissa + 2) * b.quarter := by
  unfold Covers at h
  split at h
  · exact h.2
  · exact h.2.le

theorem Covers.lt_high (h : b.Covers x) (hodd : b.mantissa % 2 = 1) :
    x < (4 * b.mantissa + 2) * b.quarter := by
  rw [Covers, if_neg (by omega)] at h
  exact h.2

theorem Covers.low_lt (h : b.Covers x) (hodd : b.mantissa % 2 = 1) :
    (4 * b.mantissa - b.below) * b.quarter < x := by
  rw [Covers, if_neg (by omega)] at h
  exact h.1

theorem Covers.pos (h : b.Covers x) (hb : b.mantissa ≠ 0) : 0 < x := by
  have hbelow : (b.below : ℚ) ≤ 2 := by exact_mod_cast b.below_le_two
  have hm : (1 : ℚ) ≤ b.mantissa := by exact_mod_cast Nat.one_le_iff_ne_zero.mpr hb
  have hlow : 0 < (4 * b.mantissa - b.below) * b.quarter :=
    mul_pos (by linarith) b.quarter_pos
  exact hlow.trans_le h.low_le

/-- At one exponent the ends of two intervals meet at most, and then one of the mantissas is odd. -/
theorem not_covers_of_mantissa_lt (he : b.exponent = b'.exponent) (hm : b.mantissa < b'.mantissa)
    (h : b.Covers x) (h' : b'.Covers x) : False := by
  have hq : b'.quarter = b.quarter := by rw [quarter, quarter, he]
  have hpos := b.quarter_pos
  have hbelow : (b'.below : ℚ) ≤ 2 := by exact_mod_cast b'.below_le_two
  have hle := h'.low_le.trans h.le_high
  rw [hq, mul_le_mul_iff_left₀ hpos] at hle
  have hnext : b'.mantissa = b.mantissa + 1 := by
    have hlt : (b'.mantissa : ℚ) < b.mantissa + 2 := by linarith
    have : b'.mantissa < b.mantissa + 2 := by exact_mod_cast hlt
    omega
  have hlt : (4 * b'.mantissa - b'.below : ℚ) < 4 * b.mantissa + 2 := by
    rcases Nat.mod_two_eq_zero_or_one b.mantissa with heven | hodd
    · have hstrict := (h'.low_lt (by omega)).trans_le h.le_high
      rwa [hq, mul_lt_mul_iff_left₀ hpos] at hstrict
    · have hstrict := h'.low_le.trans_lt (h.lt_high hodd)
      rwa [hq, mul_lt_mul_iff_left₀ hpos] at hstrict
  rw [hnext] at hlt
  push_cast at hlt
  linarith

theorem Covers.lt_of_mantissa_lt (hb : b.Legal) (h : b.Covers x) :
    x < (2 ^ 55 - 2) * b.quarter := by
  have hpos := b.quarter_pos
  have hlt := hb.mantissa_lt
  rcases Nat.mod_two_eq_zero_or_one b.mantissa with heven | hodd
  · have hm : (b.mantissa + 2 : ℚ) ≤ 2 ^ 53 := by
      have : b.mantissa + 2 ≤ 2 ^ 53 := by omega
      exact_mod_cast this
    exact h.le_high.trans_lt ((mul_lt_mul_iff_left₀ hpos).mpr (by linarith))
  · have hm : (b.mantissa + 1 : ℚ) ≤ 2 ^ 53 := by
      have : b.mantissa + 1 ≤ 2 ^ 53 := by omega
      exact_mod_cast this
    exact (h.lt_high hodd).trans_le ((mul_le_mul_iff_left₀ hpos).mpr (by linarith))

theorem Covers.le_of_exponent_ne (hb : b.Legal) (he : b.exponent ≠ -1074) (h : b.Covers x) :
    (2 ^ 54 - 1) * b.quarter ≤ x := by
  have hfull := hb.full he
  have hlow : (2 ^ 54 - 1 : ℚ) ≤ 4 * b.mantissa - b.below := by
    by_cases hleast : b.mantissa = 2 ^ 52
    · rw [below, if_pos (hb.narrow.mpr ⟨hleast, he⟩), hleast]
      norm_num
    · have hbelow : (b.below : ℚ) ≤ 2 := by exact_mod_cast b.below_le_two
      have hm : (2 ^ 52 + 1 : ℚ) ≤ b.mantissa := by
        have : 2 ^ 52 + 1 ≤ b.mantissa := by omega
        exact_mod_cast this
      linarith
  exact ((mul_le_mul_iff_left₀ b.quarter_pos).mpr hlow).trans h.low_le

/-- The interval of a float with a higher exponent is above. -/
theorem not_covers_of_exponent_lt (hb : b.Legal) (hb' : b'.Legal)
    (he : b.exponent < b'.exponent) (h : b.Covers x) (h' : b'.Covers x) : False := by
  have hleast := hb.least
  have hdouble : 2 * b.quarter ≤ b'.quarter := by
    rw [quarter, quarter, ← zpow_one_add₀ (by norm_num)]
    exact zpow_le_zpow_right₀ (by norm_num) (by omega)
  have hle := h'.le_of_exponent_ne hb' (by omega)
  have hlt := h.lt_of_mantissa_lt hb
  linarith

/-- No number reads back as two floats. -/
theorem Covers.unique (hb : b.Legal) (hb' : b'.Legal) (h : b.Covers x) (h' : b'.Covers x) :
    b = b' := by
  have hexponent : b.exponent = b'.exponent := by
    rcases lt_trichotomy b.exponent b'.exponent with hlt | heq | hlt
    · exact (not_covers_of_exponent_lt hb hb' hlt h h').elim
    · exact heq
    · exact (not_covers_of_exponent_lt hb' hb hlt h' h).elim
  have hmantissa : b.mantissa = b'.mantissa := by
    rcases lt_trichotomy b.mantissa b'.mantissa with hlt | heq | hlt
    · exact (not_covers_of_mantissa_lt hexponent hlt h h').elim
    · exact heq
    · exact (not_covers_of_mantissa_lt hexponent.symm hlt h' h).elim
  have hnarrow : b.narrowBelow = b'.narrowBelow := by
    rw [Bool.eq_iff_iff, hb.narrow, hb'.narrow, hexponent, hmantissa]
  obtain ⟨mantissa, exponent, narrowBelow⟩ := b
  obtain ⟨mantissa', exponent', narrowBelow'⟩ := b'
  cases hexponent
  cases hmantissa
  cases hnarrow
  rfl

/-! On the finest grid there is a number that reads back. -/

/-- What is less than a quarter away from a float reads back as it. -/
theorem readsBack_of_near (hb : b.mantissa ≠ 0) {d : Nat}
    (hlow : 4 * b.mantissa * b.scaleUp grid < d * b.scaleDown grid + b.scaleUp grid)
    (hhigh : d * b.scaleDown grid < 4 * b.mantissa * b.scaleUp grid + b.scaleUp grid) :
    b.readsBack grid d = true := by
  have hbelow : 4 * b.mantissa - b.below + 1 ≤ 4 * b.mantissa := by
    unfold below
    split <;> omega
  have hleft : (4 * b.mantissa - b.below) * b.scaleUp grid + b.scaleUp grid ≤
      4 * b.mantissa * b.scaleUp grid := by
    rw [← Nat.succ_mul]
    exact Nat.mul_le_mul_right _ hbelow
  have hright : (4 * b.mantissa + 2) * b.scaleUp grid =
      4 * b.mantissa * b.scaleUp grid + 2 * b.scaleUp grid := Nat.add_mul ..
  rw [readsBack_eq]
  split
  · rw [Bool.and_eq_true, decide_eq_true_iff, decide_eq_true_iff]
    omega
  · rw [Bool.and_eq_true, decide_eq_true_iff, decide_eq_true_iff]
    omega

/-- Where the points of a grid are closer than two quarters, the nearest one to a float reads
back. -/
theorem isSome_onGrid? (hb : b.mantissa ≠ 0) (h : b.scaleDown grid < 2 * b.scaleUp grid) :
    (b.onGrid? grid).isSome := by
  have hunit : 0 < b.scaleDown grid := Nat.mul_pos (Nat.pow_pos (by decide)) (Nat.pow_pos (by decide))
  have hdiv := Nat.div_add_mod (4 * b.mantissa * b.scaleUp grid) (b.scaleDown grid)
  have hrest := Nat.mod_lt (4 * b.mantissa * b.scaleUp grid) hunit
  rw [Nat.mul_comm] at hdiv
  have hnext := Nat.add_one_mul (4 * b.mantissa * b.scaleUp grid / b.scaleDown grid)
    (b.scaleDown grid)
  have hdown : 2 * (4 * b.mantissa * b.scaleUp grid % b.scaleDown grid) ≤ b.scaleDown grid →
      b.readsBack grid (4 * b.mantissa * b.scaleUp grid / b.scaleDown grid) = true :=
    fun hle => readsBack_of_near hb (by omega) (by omega)
  have hup : b.scaleDown grid ≤ 2 * (4 * b.mantissa * b.scaleUp grid % b.scaleDown grid) →
      b.readsBack grid (4 * b.mantissa * b.scaleUp grid / b.scaleDown grid + 1) = true :=
    fun hle => readsBack_of_near hb (by omega) (by omega)
  unfold onGrid?
  dsimp only
  split
  · next hlt => rw [if_pos (hdown hlt.le)]; rfl
  split
  · next hlt => rw [if_pos (hup hlt.le)]; rfl
  next hnot hnot' =>
  split
  · rw [if_pos (hdown (by omega))]; rfl
  · rw [if_pos (hup (by omega))]; rfl

/-- The powers of ten and of two for a float whose first bit stands for `2 ^ (i - 1074)`. -/
theorem grids_fine : ∀ i ∈ List.range 2098,
    scaleDown ⟨0, (i : Int) - 1125, false⟩ (((i : Int) - 1073) * 30103 / 100000 - 22) <
      scaleUp ⟨0, (i : Int) - 1125, false⟩ (((i : Int) - 1073) * 30103 / 100000 - 22) := by
  decide +kernel

/-- The points of the finest grid are that close. -/
theorem scaleDown_lt (hb : b.Legal) (h : b.mantissa ≠ 0) :
    b.scaleDown (b.coarsest - 23) < 2 * b.scaleUp (b.coarsest - 23) := by
  have hleast := hb.least
  have hgreatest := hb.greatest
  have hlog : b.mantissa.log2 ≤ 52 := by
    have := (Nat.log2_lt h).mpr hb.mantissa_lt
    omega
  obtain ⟨i, hi⟩ : ∃ i : Nat, (i : Int) = b.mantissa.log2 + b.exponent + 1074 :=
    ⟨(b.mantissa.log2 + b.exponent + 1074).toNat, by omega⟩
  have hgrid : b.coarsest - 23 = ((i : Int) - 1073) * 30103 / 100000 - 22 := by
    rw [coarsest, hi]
    omega
  have hfine := grids_fine i (List.mem_range.mpr (by omega))
  rw [← hgrid] at hfine
  obtain ⟨D, hD, hup, hdown⟩ := b.exists_scale (b.coarsest - 23)
  obtain ⟨D', hD', hup', hdown'⟩ := exists_scale ⟨0, (i : Int) - 1125, false⟩ (b.coarsest - 23)
  have hpower : (10 : ℚ) ^ (b.coarsest - 23) < quarter ⟨0, (i : Int) - 1125, false⟩ := by
    rw [← Nat.cast_lt (α := ℚ), hup', hdown', mul_lt_mul_iff_left₀ hD'] at hfine
    exact hfine
  have hdouble : quarter ⟨0, (i : Int) - 1125, false⟩ ≤ 2 * b.quarter := by
    rw [quarter, quarter, ← zpow_one_add₀ (by norm_num)]
    refine zpow_le_zpow_right₀ (by norm_num) ?_
    dsimp only
    omega
  rw [← Nat.cast_lt (α := ℚ), Nat.cast_mul, hup, hdown, ← mul_assoc, mul_lt_mul_iff_left₀ hD]
  exact hpower.trans_le hdouble

theorem value_of_onGrid? (hb : b.mantissa ≠ 0) {d : Decimal} (h : b.onGrid? grid = some d) :
    b.Covers d.value := by
  obtain ⟨nearer, farther, heq⟩ : ∃ nearer farther : Nat, b.onGrid? grid =
      if b.readsBack grid nearer then some ⟨nearer, grid⟩
      else if b.readsBack grid farther then some ⟨farther, grid⟩ else none := ⟨_, _, rfl⟩
  have hd : d.exponent = grid ∧ b.readsBack grid d.digits = true := by
    rw [heq] at h
    split at h
    · next hread => cases h; exact ⟨rfl, hread⟩
    split at h
    · next hread => cases h; exact ⟨rfl, hread⟩
    · cases h
  rw [Decimal.value, hd.1]
  exact (readsBack_iff hb).mp hd.2

/-- The shortest digits read back. -/
theorem covers_shortest (hb : b.Legal) (h : b.mantissa ≠ 0) : b.Covers b.shortest.value := by
  rw [shortest, if_neg h]
  cases hd : (List.range 24).findSome? fun (k : Nat) => b.onGrid? (b.coarsest - k) with
  | none =>
    have hnone : b.onGrid? (b.coarsest - 23) = none :=
      List.findSome?_eq_none_iff.mp hd 23 (by decide)
    have hsome := isSome_onGrid? h (scaleDown_lt hb h)
    rw [hnone] at hsome
    cases hsome
  | some d =>
    obtain ⟨k, -, hk⟩ := List.exists_of_findSome?_eq_some hd
    exact value_of_onGrid? h hk

theorem value_shortest_eq_zero_iff (hb : b.Legal) : b.shortest.value = 0 ↔ b.mantissa = 0 := by
  constructor
  · intro h
    by_contra hne
    exact ((covers_shortest hb hne).pos hne).ne' h
  · intro h
    rw [shortest, if_pos h, Decimal.value, Nat.cast_zero, zero_mul]

/-- So they tell the float. -/
theorem eq_of_shortest_value (hb : b.Legal) (hb' : b'.Legal)
    (h : b.shortest.value = b'.shortest.value) : b = b' := by
  by_cases hzero : b.mantissa = 0
  · have hzero' : b'.mantissa = 0 := by
      rw [← value_shortest_eq_zero_iff hb', ← h, value_shortest_eq_zero_iff hb]
      exact hzero
    rw [hb.eq_zero hzero, hb'.eq_zero hzero']
  · have hne : b'.mantissa ≠ 0 := by
      rwa [ne_eq, ← value_shortest_eq_zero_iff hb', ← h, value_shortest_eq_zero_iff hb]
    exact (covers_shortest hb hzero).unique hb hb' (h ▸ covers_shortest hb' hne)

end Binary

/-! Two floats do not have one shape. -/

namespace FloatShape

/-- What the sign, the exponent and the fraction of a float stand for. -/
def ofParts (negative : Bool) (biased fraction : Nat) : FloatShape :=
  if biased = 2047 then if fraction = 0 then .infinite negative else .notANumber
  else if biased = 0 then .finite negative ⟨fraction, -1074, false⟩
  else .finite negative ⟨fraction + 2 ^ 52, (biased : Int) - 1075, fraction == 0 && biased > 1⟩

theorem ofBits_eq {bits : Nat} (h : bits < 2 ^ 64) : ∃ (negative : Bool) (biased fraction : Nat),
    biased < 2 ^ 11 ∧ fraction < 2 ^ 52 ∧
      bits = negative.toNat * 2 ^ 63 + biased * 2 ^ 52 + fraction ∧
      ofBits bits = ofParts negative biased fraction := by
  refine ⟨bits / 2 ^ 63 % 2 == 1, bits / 2 ^ 52 % 2 ^ 11, bits % 2 ^ 52,
    Nat.mod_lt _ (by decide), Nat.mod_lt _ (by decide), ?_, rfl⟩
  have hsign : (bits / 2 ^ 63 % 2 == 1).toNat = bits / 2 ^ 63 % 2 := by
    rcases Nat.mod_two_eq_zero_or_one (bits / 2 ^ 63) with h | h <;> rw [h] <;> rfl
  rw [hsign]
  omega

variable {negative negative' : Bool} {biased biased' fraction fraction' : Nat}

theorem legal_of_ofParts {size : Binary} (hb : biased < 2 ^ 11) (hf : fraction < 2 ^ 52)
    (h : ofParts negative biased fraction = .finite negative' size) : size.Legal := by
  unfold ofParts at h
  split at h
  · split at h <;> cases h
  next hfinite =>
  split at h
  · cases h
    exact ⟨by dsimp only; omega, Int.le_refl _, by dsimp only; omega, fun hne => absurd rfl hne,
      by simp⟩
  · next hnormal =>
    cases h
    refine ⟨by dsimp only; omega, by dsimp only; omega, by dsimp only; omega,
      fun _ => Nat.le_add_left _ _, ?_⟩
    simp
    omega

/-- The parts are found again. -/
def parts? : FloatShape → Option (Bool × Nat × Nat)
  | .finite negative size =>
    if size.mantissa < 2 ^ 52 then some (negative, 0, size.mantissa)
    else some (negative, (size.exponent + 1075).toNat, size.mantissa - 2 ^ 52)
  | .infinite negative => some (negative, 2047, 0)
  | .notANumber => none

theorem parts?_ofParts (hf : fraction < 2 ^ 52)
    (h : ofParts negative biased fraction ≠ .notANumber) :
    (ofParts negative biased fraction).parts? = some (negative, biased, fraction) := by
  unfold ofParts at h ⊢
  split
  · next hinfinite =>
    rw [if_pos hinfinite] at h
    split
    · next hzero => rw [parts?, hinfinite, hzero]
    · next hzero => exact absurd (if_neg hzero) h
  split
  · next hzero => rw [parts?, if_pos hf, hzero]
  · rw [parts?, if_neg (by dsimp only; omega)]
    simp

end FloatShape

theorem eq_of_toBits {x y : Float} (h : x.toBits = y.toBits) : x = y := by
  obtain ⟨⟨bits, hbits⟩⟩ := x
  obtain ⟨⟨bits', hbits'⟩⟩ := y
  obtain rfl : bits = bits' := h
  rfl

/-- There are only the bits of one value that is no number. -/
theorem toBits_of_notANumber {x : Float} (h : FloatShape.ofFloat x = .notANumber) :
    x.toBits.toBitVec = Float.Model.UnpackedFloat.packedNaN .binary64 := by
  have hvalid : Float.Model.Format.binary64.Valid x.toBits.toBitVec := x.toModel.valid
  obtain ⟨hexponent, hfraction⟩ : x.toBits.toNat / 2 ^ 52 % 2 ^ 11 = 2047 ∧
      x.toBits.toNat % 2 ^ 52 ≠ 0 := by
    rw [FloatShape.ofFloat, FloatShape.ofBits] at h
    split at h
    · next hexponent =>
      split at h
      · cases h
      · next hfraction => exact ⟨hexponent, hfraction⟩
    · split at h <;> cases h
  refine hvalid.eq_packedNaN ?_ ?_
  · refine BitVec.eq_of_toNat_eq ?_
    simpa [Float.Model.UnpackedFloat.unpackExponent, Nat.shiftRight_eq_div_pow] using hexponent
  · intro hzero
    have hnat := congrArg BitVec.toNat hzero
    exact hfraction (by simpa [Float.Model.UnpackedFloat.unpackMantissa] using hnat)

namespace FloatShape

theorem legal_of_ofFloat {x : Float} {negative : Bool} {size : Binary}
    (h : ofFloat x = .finite negative size) : size.Legal := by
  obtain ⟨negative', biased, fraction, hb, hf, -, heq⟩ := ofBits_eq x.toBits.toNat_lt
  rw [ofFloat, heq] at h
  exact legal_of_ofParts hb hf h

theorem ofFloat_injective : Function.Injective ofFloat := by
  intro x y h
  by_cases hnan : ofFloat x = .notANumber
  · refine eq_of_toBits (UInt64.toBitVec_inj.mp ?_)
    rw [toBits_of_notANumber hnan, toBits_of_notANumber (h ▸ hnan)]
  · obtain ⟨negative, biased, fraction, hb, hf, hx, heq⟩ := ofBits_eq x.toBits.toNat_lt
    obtain ⟨negative', biased', fraction', hb', hf', hy, heq'⟩ := ofBits_eq y.toBits.toNat_lt
    rw [ofFloat, ofFloat, heq, heq'] at h
    rw [ofFloat, heq] at hnan
    have hparts := parts?_ofParts hf hnan
    rw [h, parts?_ofParts hf' (h ▸ hnan)] at hparts
    cases hparts
    exact eq_of_toBits (UInt64.toNat_inj.mp (hx.trans hy.symm))

end FloatShape

end ScriptFlow
