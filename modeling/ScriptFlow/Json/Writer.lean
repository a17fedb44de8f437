import ScriptFlow.Json.Basic
import ScriptFlow.Decimal.Shortest

/-!
The text of a JSON value: `", "` and `": "` between parts, ASCII characters only, every string in
double quotes with the shortest escape of each character, floats by the fewest digits that read
back.
-/

namespace ScriptFlow

/-- Numbers from `1e-4` up to `1e16` are positional, exponents have two digits or more. -/
def Json.numberStyle : NumberStyle := ⟨-4, 16, 'e', 2, "Infinity", "NaN"⟩

def hexDigit (n : Nat) : Char := (Nat.digitChar n)

/-- The last `width` hexadecimal digits of a number, lower case. -/
def hexDigits (width n : Nat) : List Char :=
  match width with
  | 0 => []
  | w + 1 => hexDigits w (n / 16) ++ [hexDigit (n % 16)]

/-- The UTF-16 units of a character. -/
def unitsOf (c : Char) : List Nat :=
  if c.toNat < 0x10000 then [c.toNat]
  else [0xD800 + (c.toNat - 0x10000) / 0x400, 0xDC00 + (c.toNat - 0x10000) % 0x400]

namespace Json

def escapeUnit (u : Nat) : List Char := '\\' :: 'u' :: hexDigits 4 u

/-- A character inside quotes. -/
def escape (c : Char) : List Char :=
  if c = '"' then ['\\', '"']
  else if c = '\\' then ['\\', '\\']
  else if c = '\n' then ['\\', 'n']
  else if c = '\r' then ['\\', 'r']
  else if c = '\t' then ['\\', 't']
  else if c.toNat = 8 then ['\\', 'b']
  else if c.toNat = 12 then ['\\', 'f']
  else if 32 ≤ c.toNat ∧ c.toNat < 127 then [c]
  else (unitsOf c).flatMap escapeUnit

def quoteChars (cs : List Char) : List Char := '"' :: (cs.flatMap escape ++ ['"'])

def quote (s : String) : List Char := quoteChars s.toList

mutual
def chars : Json → List Char
  | .null => "null".toList
  | .bool true => "true".toList
  | .bool false => "false".toList
  | .int n => integerDigits n
  | .float x => numberStyle.float x
  | .str s => quote s
  | .arr [] => ['[', ']']
  | .arr (x :: xs) => '[' :: (chars x ++ charsOfItems xs)
  | .obj [] => ['\x7b', '\x7d']
  | .obj (f :: fs) => '\x7b' :: (charsOfField f ++ charsOfFields fs)

/-- The items after the first, and the closing bracket. -/
def charsOfItems : List Json → List Char
  | [] => [']']
  | x :: xs => ',' :: ' ' :: (chars x ++ charsOfItems xs)

def charsOfField : String × Json → List Char
  | (k, v) => quote k ++ ':' :: ' ' :: chars v

/-- The fields after the first, and the closing brace. -/
def charsOfFields : List (String × Json) → List Char
  | [] => ['\x7d']
  | f :: fs => ',' :: ' ' :: (charsOfField f ++ charsOfFields fs)
end

def render (v : Json) : String := String.ofList v.chars

end Json

end ScriptFlow
