import ScriptFlow.Decimal.Numeral
import ScriptFlow.Text.Blank
import ScriptFlow.Text.Doubled

/-!
Integers in text. A plain integer is zero alone or digits that start with another one, after an
optional minus. A text that is no plain integer is tidied once, of blanks, a plus, leading zeros, a
fraction of zeros and underscores, and is then read as a plain one.
-/

namespace ScriptFlow

namespace IntegerText

/-- The most characters of a plain integer, its sign included. -/
def maxLength : Nat := 4300

/-- A minus, and what follows it. -/
def splitMinus : List Char → Bool × List Char
  | '-' :: cs => (true, cs)
  | cs => (false, cs)

/-- Whether a character can start the digits of an integer that is not zero. -/
def isLeadingDigit (c : Char) : Bool := c.isDigit && c != '0'

/-- Whether a text starts with a plain integer of too many characters. -/
def isTooLong (cs : List Char) : Bool :=
  let (negative, ds) := splitMinus cs
  ds.head?.any isLeadingDigit &&
    maxLength < (ds.takeWhile Char.isDigit).length + (if negative then 1 else 0)

/-- A plain integer of not too many characters. -/
def plain? (cs : List Char) : Option Int :=
  let (negative, ds) := splitMinus cs
  if ds = ['0'] then some 0
  else if ds.head?.any isLeadingDigit && ds.all Char.isDigit && !isTooLong cs then
    some (if negative then -natOfDigits ds else natOfDigits ds)
  else none

/-- What follows zeros and the underscores among them: digits or a minus, or a point after the last
of them. The last one stays when nothing follows. -/
def afterZeros? (last : Char) : List Char → Option (List Char)
  | [] => some [last]
  | c :: cs =>
    if c = '0' ∨ c = '_' then afterZeros? c cs
    else if c = '.' then some (last :: c :: cs)
    else if c.isDigit ∨ c = '-' then some (c :: cs)
    else none

/-- Only a text that starts with a digit has a form without leading zeros. -/
def withoutLeadingZeros? : List Char → Option (List Char)
  | [] => none
  | c :: cs =>
    if c = '0' then afterZeros? c cs
    else if c.isDigit then some (c :: cs)
    else none

/-- A point with at least one zero and nothing else behind it is left out. -/
def withoutZeroFraction (cs : List Char) : List Char :=
  match cs.dropWhile (· != '.') with
  | '.' :: fraction =>
    if !fraction.isEmpty && fraction.all (· == '0') then cs.takeWhile (· != '.') else cs
  | _ => cs

/-- A text with an optional sign, tidied. -/
def tidySigned? : List Char → Option (List Char)
  | '-' :: cs => (withoutLeadingZeros? cs).map fun ds => '-' :: ds
  | '+' :: cs => withoutLeadingZeros? cs
  | cs => withoutLeadingZeros? cs

def tidy? (cs : List Char) : Option (List Char) :=
  (tidySigned? (Text.trimBlanks cs)).map fun cs =>
    let cs := withoutZeroFraction cs
    (Text.withoutUnderscores? cs).getD cs

/-- What comes of reading a text as an integer. -/
inductive Reading where
  | integer (n : Int)
  | tooLong
  | unreadable
deriving DecidableEq

/-- Only a text that is too long as it stands is called too long. -/
def read (s : String) : Reading :=
  if isTooLong s.toList then .tooLong
  else
    match (plain? s.toList).or ((tidy? s.toList).bind plain?) with
    | some n => .integer n
    | none => .unreadable

end IntegerText

end ScriptFlow
