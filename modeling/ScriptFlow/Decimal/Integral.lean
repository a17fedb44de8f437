import ScriptFlow.Decimal.Shortest

/-!
Floats that are integers.
-/

namespace ScriptFlow

/-- The integer that a float equals. -/
def integerOfFloat? (x : Float) : Option Int :=
  match FloatShape.ofFloat x with
  | .finite negative size =>
    let scaled := size.mantissa * twoTo size.exponent.toNat
    let unit := twoTo (-size.exponent).toNat
    if scaled % unit = 0 then
      some (if negative then -(scaled / unit : Nat) else (scaled / unit : Nat))
    else none
  | _ => none

end ScriptFlow
