import ScriptFlow.Json.Writer
import ScriptFlow.Text.Doubled

/-!
The variables that a node reads and writes. It reads every name between double braces in the text
of its configuration, and a bare `source`; it writes what it saves or binds.
-/

namespace ScriptFlow

/-- The key of the note that is attached to a configuration. -/
def noteKey : String := "_aiNote"

/-- A letter, a digit or an underscore, in ASCII. -/
def isNameChar (c : Char) : Bool := c.isAlphanum || c = '_'

namespace Variables

/-- The name of a token at the front of a text: two braces, a name, two braces. -/
def tokenAt? : List Char → Option (List Char × List Char)
  | '\x7b' :: '\x7b' :: cs =>
    let name := cs.takeWhile isNameChar
    match cs.dropWhile isNameChar with
    | '\x7d' :: '\x7d' :: rest => if name.isEmpty then none else some (name, rest)
    | _ => none
  | _ => none

theorem length_of_tokenAt? {cs name rest : List Char} (h : tokenAt? cs = some (name, rest)) :
    rest.length < cs.length := by
  simp only [tokenAt?] at h
  split at h
  · next cs =>
    have hd : (cs.dropWhile isNameChar).length ≤ cs.length :=
      (List.dropWhile_sublist _).length_le
    split at h
    · next hdrop =>
      split at h
      · simp at h
      · simp only [Option.some.injEq, Prod.mk.injEq] at h
        simp only [hdrop, List.length_cons, h.2] at hd
        simp only [List.length_cons]
        omega
    · simp at h
  · simp at h

/-- The names of the tokens of a text, from the left, none overlapping another. -/
def tokens (cs : List Char) : List String :=
  match h : tokenAt? cs with
  | some (name, rest) =>
    have := length_of_tokenAt? h
    String.ofList name :: tokens rest
  | none =>
    match cs with
    | [] => []
    | _ :: rest => tokens rest
termination_by cs.length

/-- Appends a name unless it is there. -/
def addNew (names : List String) (name : String) : List String :=
  if names.contains name then names else names ++ [name]

/-- A source that names a variable and is no template. -/
def bareSource? (config : Fields) : Option String :=
  match config.value "source" with
  | .str s => if s ≠ "" ∧ ¬ Text.isDoubled '\x7b' s.toList then some s else none
  | _ => none

/-- The variables that a configuration reads, the attached note left aside. -/
def inputs (config : Fields) : List String :=
  let found := (tokens (Json.obj (config.without [noteKey])).chars).foldl addNew []
  match bareSource? config with
  | some s => addNew found s
  | none => found

def addText (names : List String) : Json → List String
  | .str s => if s = "" then names else addNew names s
  | _ => names

/-- The variables that an action of this type writes: what it saves, the item of a loop (`item`
unless another name is given), and the variable that is set. -/
def outputs (type : String) (config : Fields) : List String :=
  let saved := addText (addText [] (config.value "saveAs")) (config.value "itemAs")
  let looped := if type = "forEach" ∧ ¬ config.has "itemAs" then addNew saved "item" else saved
  if type = "set" then addText looped (config.value "variable") else looped

end Variables

end ScriptFlow
