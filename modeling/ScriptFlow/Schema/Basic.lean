import ScriptFlow.Json.Equality

/-!
Checked reading of JSON values. Every fault of a value is reported, in the order of the fields of
the record it is read as, with the path to the offending value and that value itself.
-/

namespace ScriptFlow

/-- A step from a value to a part of it. -/
inductive Step where
  | key (name : String)
  | index (i : Nat)
deriving DecidableEq

/-- What is wrong with a value. -/
inductive Problem where
  | notText
  | notList
  | notObject
  /-- Not the object that a record of this name is read from. -/
  | notRecord (name : String)
  /-- Not the object that a record inside a request is read from. -/
  | notFieldSource
  | missing
  | notOneOf (choices : List String)
  | notNumber
  | unreadableNumber
  | notInteger
  | unreadableInteger
  | oversizedInteger
  | fractionalInteger
  | notBoolean
  | unreadableBoolean
deriving DecidableEq

structure Issue where
  path : List Step
  problem : Problem
  input : Json
deriving DecidableEq

/-- Choices in quotes, with commas and a last "or". -/
def choiceText : List String → String
  | [] => ""
  | [a] => "'" ++ a ++ "'"
  | [a, b] => "'" ++ a ++ "' or '" ++ b ++ "'"
  | a :: rest => "'" ++ a ++ "', " ++ choiceText rest

namespace Problem

def code : Problem → String
  | notText => "string_type"
  | notList => "list_type"
  | notObject => "dict_type"
  | notRecord _ => "model_type"
  | notFieldSource => "model_attributes_type"
  | missing => "missing"
  | notOneOf _ => "enum"
  | notNumber => "float_type"
  | unreadableNumber => "float_parsing"
  | notInteger => "int_type"
  | unreadableInteger => "int_parsing"
  | oversizedInteger => "int_parsing_size"
  | fractionalInteger => "int_from_float"
  | notBoolean => "bool_type"
  | unreadableBoolean => "bool_parsing"

def message : Problem → String
  | notText => "Input should be a valid string"
  | notList => "Input should be a valid list"
  | notObject => "Input should be a valid dictionary"
  | notRecord name => "Input should be a valid dictionary or instance of " ++ name
  | notFieldSource => "Input should be a valid dictionary or object to extract fields from"
  | missing => "Field required"
  | notOneOf choices => "Input should be " ++ choiceText choices
  | notNumber => "Input should be a valid number"
  | unreadableNumber => "Input should be a valid number, unable to parse string as a number"
  | notInteger => "Input should be a valid integer"
  | unreadableInteger => "Input should be a valid integer, unable to parse string as an integer"
  | oversizedInteger => "Unable to parse input string as an integer, exceeded maximum size"
  | fractionalInteger => "Input should be a valid integer, got a number with a fractional part"
  | notBoolean => "Input should be a valid boolean"
  | unreadableBoolean => "Input should be a valid boolean, unable to interpret input"

/-- What a message was filled in with. -/
def context : Problem → Fields
  | notRecord name => [("class_name", .str name)]
  | notOneOf choices => [("expected", .str (choiceText choices))]
  | _ => []

end Problem

namespace Step

def toJson : Step → Json
  | key name => .str name
  | index i => .int i

end Step

namespace Issue

def isUnder (s : Step) (i : Issue) : Issue := { i with path := s :: i.path }

def pathJson (i : Issue) : Json := .arr (i.path.map Step.toJson)

/-- The place, the code and the message. -/
def summary (i : Issue) : Json :=
  .obj [("loc", i.pathJson), ("type", .str i.problem.code), ("msg", .str i.problem.message)]

/-- The summary with the offending value and what the message was filled in with. -/
def report (i : Issue) : Json :=
  .obj ([("type", .str i.problem.code), ("loc", i.pathJson), ("msg", .str i.problem.message),
    ("input", i.input)] ++
    (if i.problem.context.isEmpty then [] else [("ctx", .obj i.problem.context)]))

end Issue

/-- A value read as `α`, or every fault found in it. -/
inductive Checked (α : Type) where
  | accepted (a : α)
  | refused (issues : List Issue)
deriving DecidableEq

namespace Checked

variable {α β γ : Type}

def refuse (p : Problem) (input : Json) : Checked α := .refused [⟨[], p, input⟩]

def issues : Checked α → List Issue
  | accepted _ => []
  | refused is => is

def map (f : α → β) : Checked α → Checked β
  | accepted a => .accepted (f a)
  | refused is => .refused is

/-- Both parts are read; the faults of the first come first. -/
def apply (f : Checked (α → β)) (x : Checked α) : Checked β :=
  match f, x with
  | accepted f, accepted a => .accepted (f a)
  | accepted _, refused is => .refused is
  | refused is, x => .refused (is ++ x.issues)

/-- Faults inside a part are reported from the whole. -/
def under (s : Step) : Checked α → Checked α
  | accepted a => .accepted a
  | refused is => .refused (is.map (·.isUnder s))

def toExcept (f : List Issue → γ) : Checked α → Except γ α
  | accepted a => .ok a
  | refused is => .error (f is)

/-- Reads the items of a list, numbered from `i`. -/
def items (check : Json → Checked α) (i : Nat) : List Json → Checked (List α)
  | [] => .accepted []
  | v :: vs => ((check v).under (.index i) |>.map List.cons).apply (items check (i + 1) vs)

end Checked

/-- Where a record is read from: a value of its own, or a part of a request. -/
inductive Origin where
  | value
  | request
deriving DecidableEq

namespace Read

variable {α : Type}

def text : Json → Checked String
  | .str s => .accepted s
  | v => .refuse .notText v

def list (check : Json → Checked α) : Json → Checked (List α)
  | .arr vs => .items check 0 vs
  | v => .refuse .notList v

def object : Json → Checked Fields
  | .obj fs => .accepted fs
  | v => .refuse .notObject v

/-- Reads the record called `name` from the fields of an object. -/
def record (origin : Origin) (name : String) (check : Fields → Checked α) : Json → Checked α
  | .obj fs => check fs
  | v => .refuse (match origin with
    | .value => .notRecord name
    | .request => .notFieldSource) v

/-- An optional field. -/
def field (fs : Fields) (key : String) (absent : α) (check : Json → Checked α) : Checked α :=
  match fs.get? key with
  | some v => (check v).under (.key key)
  | none => .accepted absent

/-- An optional field that can be written under two names; the first one counts if both are. -/
def fieldOr (fs : Fields) (key other : String) (absent : α) (check : Json → Checked α) :
    Checked α :=
  match fs.get? key with
  | some v => (check v).under (.key key)
  | none => field fs other absent check

/-- A field that has to be there. -/
def required (fs : Fields) (key : String) (check : Json → Checked α) : Checked α :=
  match fs.get? key with
  | some v => (check v).under (.key key)
  | none => .refused [⟨[.key key], .missing, .obj fs⟩]

/-- A field that has to be there under one of two names. -/
def requiredOr (fs : Fields) (key other : String) (check : Json → Checked α) : Checked α :=
  match fs.get? key, fs.get? other with
  | none, some v => (check v).under (.key other)
  | _, _ => required fs key check

end Read

end ScriptFlow
