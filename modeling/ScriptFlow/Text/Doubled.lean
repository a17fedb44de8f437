/-!
Texts in which a character stands next to itself, and underscores that group the digits of a number.
-/

namespace ScriptFlow.Text

/-- Whether two of a character stand next to each other. -/
def isDoubled (c : Char) : List Char → Bool
  | a :: b :: cs => (a = c && b = c) || isDoubled c (b :: cs)
  | _ => false

/-- Underscores between other characters, one at a time, are left out. -/
def withoutUnderscores? (cs : List Char) : Option (List Char) :=
  if !cs.contains '_' || cs.head? == some '_' || cs.getLast? == some '_' || isDoubled '_' cs then
    none
  else some (cs.filter (· != '_'))

end ScriptFlow.Text
