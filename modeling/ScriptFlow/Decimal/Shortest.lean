/-!
The fewest digits that read back: a finite float is `mantissa * 2 ^ exponent`, every real closer to
it than to its neighbours reads back as it, and the coarsest decimal grid with a point among those
reals gives the digits.
-/

namespace ScriptFlow

/-- The exact size of a finite float. -/
structure Binary where
  mantissa : Nat
  exponent : Int
  /-- The neighbour below is half as far away as the one above. -/
  narrowBelow : Bool
deriving DecidableEq

/-- What the bits of a float stand for. -/
inductive FloatShape where
  | finite (negative : Bool) (size : Binary)
  | infinite (negative : Bool)
  | notANumber
deriving DecidableEq

def twoTo (n : Nat) : Nat := Nat.pow 2 n

def tenTo (n : Nat) : Nat := Nat.pow 10 n

def FloatShape.ofBits (bits : Nat) : FloatShape :=
  let negative := bits / twoTo 63 % 2 == 1
  let biased : Nat := bits / twoTo 52 % twoTo 11
  let fraction := bits % twoTo 52
  if biased = 2047 then
    if fraction = 0 then .infinite negative else .notANumber
  else if biased = 0 then
    .finite negative ⟨fraction, -1074, false⟩
  else
    .finite negative ⟨fraction + twoTo 52, (biased : Int) - 1075, fraction == 0 && biased > 1⟩

def FloatShape.ofFloat (x : Float) : FloatShape := .ofBits x.toBits.toNat

/-- The number `digits * 10 ^ exponent`. -/
structure Decimal where
  digits : Nat
  exponent : Int
deriving DecidableEq

namespace Binary

/-- `x * 2 ^ (exponent - 2)` and `d * 10 ^ grid` compare as `x * scaleUp` and `d * scaleDown`. -/
def scaleUp (b : Binary) (grid : Int) : Nat :=
  twoTo (b.exponent - 2).toNat * tenTo (-grid).toNat

def scaleDown (b : Binary) (grid : Int) : Nat :=
  twoTo (2 - b.exponent).toNat * tenTo grid.toNat

/-- Whether `d * 10 ^ grid` reads back as `b`. The ends of the interval do when the mantissa is
even. -/
def readsBack (b : Binary) (grid : Int) (d : Nat) : Bool :=
  let low := (4 * b.mantissa - if b.narrowBelow then 1 else 2) * b.scaleUp grid
  let high := (4 * b.mantissa + 2) * b.scaleUp grid
  let point := d * b.scaleDown grid
  if b.mantissa % 2 = 0 then low ≤ point && point ≤ high else low < point && point < high

/-- The point of a decimal grid that reads back as `b`: of the two neighbours of `b` the nearer,
and of two equally near the even one. -/
def onGrid? (b : Binary) (grid : Int) : Option Decimal :=
  let value := 4 * b.mantissa * b.scaleUp grid
  let unit := b.scaleDown grid
  let below := value / unit
  let rest := 2 * (value % unit)
  let nearer := if rest < unit then below else if unit < rest then below + 1
    else if below % 2 = 0 then below else below + 1
  let farther := if nearer = below then below + 1 else below
  if b.readsBack grid nearer then some ⟨nearer, grid⟩
  else if b.readsBack grid farther then some ⟨farther, grid⟩
  else none

/-- A grid above which every point is larger than `b`. -/
def coarsest (b : Binary) : Int := (b.mantissa.log2 + b.exponent + 1) * 30103 / 100000 + 1

/-- The shortest decimal that reads back as `b`. -/
def shortest (b : Binary) : Decimal :=
  if b.mantissa = 0 then ⟨0, 0⟩
  else ((List.range 24).findSome? fun (k : Nat) => b.onGrid? (b.coarsest - k)).getD ⟨0, 0⟩

end Binary

/-- How a decimal is laid out. -/
structure NumberStyle where
  /-- Numbers whose first digit stands for `10 ^ e` are positional for `leastPositional ≤ e`... -/
  leastPositional : Int
  /-- ... and `e < firstScientific`. -/
  firstScientific : Int
  exponentMark : Char
  /-- Exponents have a sign and at least this many digits. -/
  exponentWidth : Nat
  infinite : String
  notANumber : String

def decimalDigits (n : Nat) : List Char := Nat.toDigits 10 n

namespace NumberStyle

def exponentText (st : NumberStyle) (e : Int) : List Char :=
  let ds := decimalDigits e.natAbs
  st.exponentMark :: (if e < 0 then '-' else '+') ::
    (List.replicate (st.exponentWidth - ds.length) '0' ++ ds)

/-- Positional digits with at least one on each side of the point. -/
def positional (ds : List Char) (exponent : Int) : List Char :=
  if 0 ≤ exponent then
    ds ++ List.replicate exponent.toNat '0' ++ ['.', '0']
  else
    let places := exponent.natAbs
    let padded := List.replicate (places + 1 - ds.length) '0' ++ ds
    padded.take (padded.length - places) ++ '.' :: padded.drop (padded.length - places)

def decimal (st : NumberStyle) (d : Decimal) : List Char :=
  let ds := decimalDigits d.digits
  let e := d.exponent + ds.length - 1
  if d.digits = 0 then ['0', '.', '0']
  else if st.leastPositional ≤ e ∧ e < st.firstScientific then positional ds d.exponent
  else
    match ds with
    | [c] => c :: st.exponentText e
    | c :: rest => c :: '.' :: (rest ++ st.exponentText e)
    | [] => []

def signed (negative : Bool) (cs : List Char) : List Char := if negative then '-' :: cs else cs

def float (st : NumberStyle) (x : Float) : List Char :=
  match FloatShape.ofFloat x with
  | .finite negative size => signed negative (st.decimal size.shortest)
  | .infinite negative => signed negative st.infinite.toList
  | .notANumber => st.notANumber.toList

end NumberStyle

/-- An integer in decimal. -/
def integerDigits (n : Int) : List Char := NumberStyle.signed (n < 0) (decimalDigits n.natAbs)

end ScriptFlow
