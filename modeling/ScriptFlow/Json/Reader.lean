import ScriptFlow.Json.Basic
import ScriptFlow.Decimal.Numeral

/-!
Reading JSON text. A number with a fraction or an exponent is a float, any other an integer; a key
written twice keeps its first place and its last value.
-/

namespace ScriptFlow.Json

def isBlank (c : Char) : Bool := c = ' ' || c = '\t' || c = '\n' || c = '\r'

def skipBlanks (cs : List Char) : List Char := cs.dropWhile isBlank

def hexValue? (c : Char) : Option Nat :=
  if '0' ≤ c ∧ c ≤ '9' then some (c.toNat - 48)
  else if 'a' ≤ c ∧ c ≤ 'f' then some (c.toNat - 87)
  else if 'A' ≤ c ∧ c ≤ 'F' then some (c.toNat - 55)
  else none

/-- Four hexadecimal digits. -/
def readUnit? : List Char → Option (Nat × List Char)
  | a :: b :: c :: d :: rest => do
    let a ← hexValue? a
    let b ← hexValue? b
    let c ← hexValue? c
    let d ← hexValue? d
    some (((a * 16 + b) * 16 + c) * 16 + d, rest)
  | _ => none

/-- A character from one UTF-16 unit, or from two that form a pair. -/
def readEscapedChar? (cs : List Char) : Option (Char × List Char) :=
  match readUnit? cs with
  | none => none
  | some (u, rest) =>
    if 0xD800 ≤ u ∧ u < 0xDC00 then
      match rest with
      | '\\' :: 'u' :: more =>
        match readUnit? more with
        | some (v, rest) =>
          if 0xDC00 ≤ v ∧ v < 0xE000 then
            some (Char.ofNat (0x10000 + (u - 0xD800) * 0x400 + (v - 0xDC00)), rest)
          else none
        | none => none
      | _ => none
    else some (Char.ofNat u, rest)

def simpleEscape? : Char → Option Char
  | '"' => some '"'
  | '\\' => some '\\'
  | '/' => some '/'
  | 'n' => some '\n'
  | 'r' => some '\r'
  | 't' => some '\t'
  | 'b' => some '\x08'
  | 'f' => some '\x0c'
  | _ => none

/-- The characters up to the closing quote. -/
def readString (fuel : Nat) (cs acc : List Char) : Option (String × List Char) :=
  match fuel with
  | 0 => none
  | fuel + 1 =>
    match cs with
    | [] => none
    | '"' :: rest => some (String.ofList acc.reverse, rest)
    | '\\' :: 'u' :: rest =>
      match readEscapedChar? rest with
      | some (c, rest) => readString fuel rest (c :: acc)
      | none => none
    | '\\' :: c :: rest =>
      match simpleEscape? c with
      | some c => readString fuel rest (c :: acc)
      | none => none
    | c :: rest => readString fuel rest (c :: acc)

def readWord (word : String) (v : Json) (cs : List Char) : Option (Json × List Char) :=
  if word.toList.isPrefixOf cs then some (v, cs.drop word.length) else none

def readNumber (cs : List Char) : Option (Json × List Char) :=
  match Numeral.scan cs with
  | (n, rest) =>
    if n.whole.isEmpty then none
    else some (if n.isInteger then .int n.toInt else .float n.toFloat, rest)

mutual
def readValue (fuel : Nat) (cs : List Char) : Option (Json × List Char) :=
  match fuel with
  | 0 => none
  | fuel + 1 =>
    match skipBlanks cs with
    | '"' :: rest => (readString fuel rest []).map fun r => (.str r.1, r.2)
    | '[' :: rest =>
      match skipBlanks rest with
      | ']' :: rest => some (.arr [], rest)
      | rest => (readItems fuel rest).map fun r => (.arr r.1, r.2)
    | '\x7b' :: rest =>
      match skipBlanks rest with
      | '\x7d' :: rest => some (.obj [], rest)
      | rest => (readFields fuel rest).map fun r => (.obj (Fields.ofWritten r.1), r.2)
    | 't' :: rest => readWord "true" (.bool true) ('t' :: rest)
    | 'f' :: rest => readWord "false" (.bool false) ('f' :: rest)
    | 'n' :: rest => readWord "null" .null ('n' :: rest)
    | rest => readNumber rest

def readItems (fuel : Nat) (cs : List Char) : Option (List Json × List Char) :=
  match fuel with
  | 0 => none
  | fuel + 1 =>
    match readValue fuel cs with
    | none => none
    | some (v, rest) =>
      match skipBlanks rest with
      | ']' :: rest => some ([v], rest)
      | ',' :: rest => (readItems fuel rest).map fun r => (v :: r.1, r.2)
      | _ => none

def readFields (fuel : Nat) (cs : List Char) : Option (Fields × List Char) :=
  match fuel with
  | 0 => none
  | fuel + 1 =>
    match skipBlanks cs with
    | '"' :: rest =>
      match readString fuel rest [] with
      | none => none
      | some (k, rest) =>
        match skipBlanks rest with
        | ':' :: rest =>
          match readValue fuel rest with
          | none => none
          | some (v, rest) =>
            match skipBlanks rest with
            | '\x7d' :: rest => some ([(k, v)], rest)
            | ',' :: rest => (readFields fuel rest).map fun r => ((k, v) :: r.1, r.2)
            | _ => none
        | _ => none
    | _ => none
end

/-- Reads a whole text. No step of the reader takes more than two units of fuel per character. -/
def parse? (s : String) : Option Json :=
  match readValue (2 * s.length + 2) s.toList with
  | some (v, rest) => if (skipBlanks rest).isEmpty then some v else none
  | none => none

end ScriptFlow.Json
