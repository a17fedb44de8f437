import ScriptFlow.Decimal.Integral
import ScriptFlow.Decimal.Numeral
import ScriptFlow.Schema.Basic
import ScriptFlow.Schema.IntegerText

/-!
Numbers and booleans that may be written in other kinds of value. Integers, booleans and decimal
text are read as floats; integral floats, booleans and text as integers; zero, one and a few words
as booleans.
-/

namespace ScriptFlow

namespace NumberText

/-- The words for numbers that are not finite. -/
def specialFloat? (cs : List Char) : Option Float :=
  let (negative, cs) := Numeral.scanSign cs
  let size? : Option Float :=
    match String.ofList (cs.map Char.toLower) with
    | "inf" | "infinity" => some (1.0 / 0.0)
    | "nan" => some (0.0 / 0.0)
    | _ => none
  size?.map fun size => if negative then -size else size

/-- A whole text as a float: a sign, digits with a point somewhere, an exponent. -/
def plainFloat? (cs : List Char) : Option Float :=
  match Numeral.scan cs with
  | (n, []) => if n.hasDigit then some n.toFloat else specialFloat? cs
  | _ => specialFloat? cs

def float? (s : String) : Option Float :=
  match plainFloat? (Text.trimBlanks s.toList) with
  | some x => some x
  | none => (Text.withoutUnderscores? s.toList).bind plainFloat?

end NumberText

/-- The words for true and false, lower case. -/
def booleanWord? : String → Option Bool
  | "0" | "off" | "f" | "false" | "n" | "no" => some false
  | "1" | "on" | "t" | "true" | "y" | "yes" => some true
  | _ => none

/-- Whether an integer lies strictly between the ends of the 64-bit words with a sign. -/
def fitsWord (n : Int) : Bool := n.natAbs < twoTo 63

/-- The integer that a float equals, if it fits into a word. -/
def wordOfFloat? (x : Float) : Option Int := (integerOfFloat? x).filter fitsWord

namespace Read

def float : Json → Checked Float
  | .float x => .accepted x
  | .int n =>
    let x := Float.ofInt n
    if x.isFinite then .accepted x else .refuse .notNumber (.int n)
  | .bool b => .accepted (if b then 1 else 0)
  | .str s =>
    match NumberText.float? s with
    | some x => .accepted x
    | none => .refuse .unreadableNumber (.str s)
  | v => .refuse .notNumber v

/-- An integral float is read as an integer if it fits into a word. -/
def integer : Json → Checked Int
  | .int n => .accepted n
  | .bool b => .accepted (if b then 1 else 0)
  | .float x =>
    match wordOfFloat? x with
    | some n => .accepted n
    | none =>
      .refuse (if (integerOfFloat? x).isSome then .oversizedInteger else .fractionalInteger)
        (.float x)
  | .str s =>
    match IntegerText.read s with
    | .integer n => .accepted n
    | .tooLong => .refuse .oversizedInteger (.str s)
    | .unreadable => .refuse .unreadableInteger (.str s)
  | v => .refuse .notInteger v

/-- Zero and one as a boolean; no other integer is one. -/
def booleanOfInt (n : Int) (input : Json) : Checked Bool :=
  if n = 0 then .accepted false
  else if n = 1 then .accepted true
  else .refuse .unreadableBoolean input

/-- A number that is no integer of a word is not read as a boolean at all. -/
def boolean : Json → Checked Bool
  | .bool b => .accepted b
  | .int n =>
    if fitsWord n || n == -(twoTo 63) then booleanOfInt n (.int n)
    else .refuse .notBoolean (.int n)
  | .float x =>
    match wordOfFloat? x with
    | some n => booleanOfInt n (.float x)
    | none => .refuse .notBoolean (.float x)
  | .str s =>
    match booleanWord? (String.ofList (s.toList.map Char.toLower)) with
    | some b => .accepted b
    | none => .refuse .unreadableBoolean (.str s)
  | v => .refuse .notBoolean v

/-- One of a few texts. -/
def choice {α : Type} (choices : List α) (name : α → String) (v : Json) : Checked α :=
  match v with
  | .str s =>
    match choices.find? (name · == s) with
    | some a => .accepted a
    | none => .refuse (.notOneOf (choices.map name)) v
  | _ => .refuse (.notOneOf (choices.map name)) v

end Read

end ScriptFlow
