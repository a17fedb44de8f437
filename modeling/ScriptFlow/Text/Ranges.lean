/-!
Sets of characters as ascending ranges of code points, both ends included.
-/

namespace ScriptFlow

/-- The search ends at the first range that starts past the character. -/
def inRanges (ranges : List (Nat × Nat)) (c : Char) : Bool :=
  match ranges with
  | [] => false
  | r :: rest => if c.toNat < r.1 then false else c.toNat ≤ r.2 || inRanges rest c

end ScriptFlow
