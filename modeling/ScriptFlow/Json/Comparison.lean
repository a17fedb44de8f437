import ScriptFlow.Decimal.Integral
import ScriptFlow.Json.Basic

/-!
Equality of values as data: numbers compare by size whatever their kind, with true as one and false
as zero, and the order of fields does not count.
-/

namespace ScriptFlow.Json

/-- An integer or a boolean as an integer. -/
def whole? : Json → Option Int
  | .bool b => some (if b then 1 else 0)
  | .int n => some n
  | _ => none

/-- Equality of values without parts. -/
def sameScalar : Json → Json → Bool
  | .null, .null => true
  | .str s, .str t => s == t
  | .float x, .float y => x == y
  | .float x, w => w.whole?.isSome && integerOfFloat? x == w.whole?
  | v, .float y => v.whole?.isSome && integerOfFloat? y == v.whole?
  | v, w => v.whole?.isSome && v.whole? == w.whole?

mutual
def same : Json → Json → Bool
  | .arr xs, .arr ys => sameItems xs ys
  | .obj fs, .obj gs => fs.length == gs.length && sameFields fs gs
  | v, w => sameScalar v w

def sameItems : List Json → List Json → Bool
  | [], [] => true
  | x :: xs, y :: ys => same x y && sameItems xs ys
  | _, _ => false

/-- Whether every field has an equal one under its key. -/
def sameFields : List (String × Json) → List (String × Json) → Bool
  | [], _ => true
  | (k, v) :: fs, gs =>
    (match Fields.get? gs k with
      | some w => same v w
      | none => false) && sameFields fs gs
end

end ScriptFlow.Json
