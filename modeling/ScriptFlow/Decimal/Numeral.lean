import ScriptFlow.Decimal.Shortest

/-!
Numbers in text: a sign, digits, a fraction and an exponent, read as the nearest float or as an
integer.
-/

namespace ScriptFlow

def digitValue (c : Char) : Nat := c.toNat - '0'.toNat

def natOfDigits (ds : List Char) : Nat := ds.foldl (fun n c => 10 * n + digitValue c) 0

/-- The nearest float to `mantissa * 10 ^ exponent`. Outside the exponents tested here the answer
is infinity or zero. -/
def nearestFloat (negative : Bool) (mantissa : Nat) (exponent : Int) : Float :=
  let size :=
    if mantissa = 0 then 0
    else if 0 ≤ exponent then Float.ofScientific mantissa false (min exponent.toNat 400)
    else if 400 + mantissa.log2 < exponent.natAbs then 0
    else Float.ofScientific mantissa true exponent.natAbs
  if negative then -size else size

/-- The parts of a number in text. -/
structure Numeral where
  negative : Bool
  whole : List Char
  fraction : Option (List Char)
  exponent : Option Int

namespace Numeral

def scanSign : List Char → Bool × List Char
  | '-' :: cs => (true, cs)
  | '+' :: cs => (false, cs)
  | cs => (false, cs)

def scanFraction : List Char → Option (List Char) × List Char
  | '.' :: cs => (some (cs.takeWhile Char.isDigit), cs.dropWhile Char.isDigit)
  | cs => (none, cs)

/-- An exponent counts only when a digit follows its mark and sign. -/
def scanExponent (cs : List Char) : Option Int × List Char :=
  match cs with
  | c :: rest =>
    if c = 'e' ∨ c = 'E' then
      let (negative, rest) := scanSign rest
      let ds := rest.takeWhile Char.isDigit
      if ds.isEmpty then (none, cs)
      else
        (some (if negative then -natOfDigits ds else natOfDigits ds), rest.dropWhile Char.isDigit)
    else (none, cs)
  | [] => (none, cs)

/-- Reads a number from the front of a text. -/
def scan (cs : List Char) : Numeral × List Char :=
  let (negative, cs) := scanSign cs
  let whole := cs.takeWhile Char.isDigit
  let (fraction, cs) := scanFraction (cs.dropWhile Char.isDigit)
  let (exponent, cs) := scanExponent cs
  (⟨negative, whole, fraction, exponent⟩, cs)

def hasDigit (n : Numeral) : Bool := !n.whole.isEmpty || n.fraction.any (!·.isEmpty)

def isInteger (n : Numeral) : Bool := n.fraction.isNone && n.exponent.isNone

def toInt (n : Numeral) : Int :=
  if n.negative then -natOfDigits n.whole else natOfDigits n.whole

def toFloat (n : Numeral) : Float :=
  let fraction := n.fraction.getD []
  nearestFloat n.negative (natOfDigits (n.whole ++ fraction)) (n.exponent.getD 0 - fraction.length)

end Numeral

end ScriptFlow
