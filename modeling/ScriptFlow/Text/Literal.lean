import ScriptFlow.Json.Writer
import ScriptFlow.Text.Printable

/-!
The literal text of a value, as labels show it: `None`, `True` and `False`, numbers as in JSON
text, strings in single quotes unless that would need an escape and double quotes would not.
-/

namespace ScriptFlow

namespace Text

/-- Double quotes serve a string with single quotes and no double quotes. -/
def quoteFor (cs : List Char) : Char :=
  if cs.contains '\'' && !cs.contains '"' then '"' else '\''

/-- A character inside quotes: unprintable ones by code. -/
def literalChar (quote : Char) (c : Char) : List Char :=
  if c = quote ∨ c = '\\' then ['\\', c]
  else if c = '\n' then ['\\', 'n']
  else if c = '\r' then ['\\', 'r']
  else if c = '\t' then ['\\', 't']
  else if isPrintable c then [c]
  else if c.toNat < 0x100 then '\\' :: 'x' :: hexDigits 2 c.toNat
  else if c.toNat < 0x10000 then '\\' :: 'u' :: hexDigits 4 c.toNat
  else '\\' :: 'U' :: hexDigits 8 c.toNat

def literalChars (cs : List Char) : List Char :=
  let quote := quoteFor cs
  quote :: (cs.flatMap (literalChar quote) ++ [quote])

def literal (s : String) : List Char := literalChars s.toList

end Text

namespace Json

/-- Floats in labels: as in JSON text but for the texts of infinity and not-a-number. -/
def labelNumberStyle : NumberStyle :=
  { Json.numberStyle with infinite := "inf", notANumber := "nan" }

mutual
def literal : Json → List Char
  | .null => "None".toList
  | .bool true => "True".toList
  | .bool false => "False".toList
  | .int n => integerDigits n
  | .float x => labelNumberStyle.float x
  | .str s => Text.literal s
  | .arr [] => ['[', ']']
  | .arr (x :: xs) => '[' :: (literal x ++ literalItems xs)
  | .obj [] => ['\x7b', '\x7d']
  | .obj (f :: fs) => '\x7b' :: (literalField f ++ literalFields fs)

/-- The items after the first, and the closing bracket. -/
def literalItems : List Json → List Char
  | [] => [']']
  | x :: xs => ',' :: ' ' :: (literal x ++ literalItems xs)

def literalField : String × Json → List Char
  | (k, v) => Text.literal k ++ ':' :: ' ' :: literal v

/-- The fields after the first, and the closing brace. -/
def literalFields : List (String × Json) → List Char
  | [] => ['\x7d']
  | f :: fs => ',' :: ' ' :: (literalField f ++ literalFields fs)
end

/-- The text of a value in running text: a string stands for itself. -/
def text : Json → String
  | .str s => s
  | v => String.ofList v.literal

end Json

end ScriptFlow
