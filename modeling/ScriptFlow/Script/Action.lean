import ScriptFlow.Json.Basic
import ScriptFlow.Text.Literal

/-!
The action tree of a script. In JSON an action is a flat object tagged by `type`; `if`, `forEach`
and `while` hold nested actions and every other tag is a leaf. Any value can be read as an action,
and writing an action keeps exactly the scalar keys that were supplied.
-/

namespace ScriptFlow

/-- What a loop runs over. A key that was not supplied is `none`. -/
inductive LoopHead where
  | forEach (source itemAs : Option Json)
  | whileLoop (condition maxIterations : Option Json)

inductive Action where
  | leaf (type : String) (fields : Fields)
  | branch (condition : Option Json) (extra : Fields) (thenBody elseBody : List Action)
  | loop (head : LoopHead) (extra : Fields) (body : List Action)

/-- The field of a key that may have been left out. -/
def optionalField (key : String) : Option Json → Fields
  | some v => [(key, v)]
  | none => []

namespace LoopHead

def type : LoopHead → String
  | forEach .. => "forEach"
  | whileLoop .. => "while"

def fields : LoopHead → Fields
  | forEach source itemAs => optionalField "source" source ++ optionalField "itemAs" itemAs
  | whileLoop condition maxIterations =>
    optionalField "condition" condition ++ optionalField "maxIterations" maxIterations

end LoopHead

/-- Keys that hold nested actions. -/
def bodyKeys : List String := ["then", "else", "do"]

namespace Action

def type : Action → String
  | leaf t _ => t
  | branch .. => "if"
  | loop head .. => head.type

/-- The flat object of an action without the keys that hold nested actions. -/
def config : Action → Fields
  | leaf t fields => ("type", .str t) :: fields
  | branch condition extra _ _ =>
    ("type", .str "if") :: (optionalField "condition" condition ++ extra.without bodyKeys)
  | loop head extra _ => ("type", .str head.type) :: (head.fields ++ extra.without bodyKeys)

mutual
def toJson : Action → Json
  | leaf t fields => .obj (("type", .str t) :: fields)
  | branch condition extra thenBody elseBody =>
    .obj (("type", .str "if") :: (optionalField "condition" condition ++ extra ++
      [("then", .arr (listToJson thenBody)), ("else", .arr (listToJson elseBody))]))
  | loop head extra body =>
    .obj (("type", .str head.type) :: (head.fields ++ extra ++ [("do", .arr (listToJson body))]))

def listToJson : List Action → List Json
  | [] => []
  | a :: as => a.toJson :: listToJson as
end

/-- The action with a tag, from its other fields and the nested actions under each key. -/
def ofTag (tag : String) (rest : Fields) (bodyOf : String → List Action) : Action :=
  if tag = "if" then
    branch (rest.get? "condition") (rest.without ["condition", "then", "else"])
      (bodyOf "then") (bodyOf "else")
  else if tag = "forEach" then
    loop (.forEach (rest.get? "source") (rest.get? "itemAs"))
      (rest.without ["source", "itemAs", "do"]) (bodyOf "do")
  else if tag = "while" then
    loop (.whileLoop (rest.get? "condition") (rest.get? "maxIterations"))
      (rest.without ["condition", "maxIterations", "do"]) (bodyOf "do")
  else leaf tag rest

/-- The action of an object, given the nested actions under each of its keys. A tag that is no text
is kept as text in a leaf, null as the empty one. -/
def ofFields (fs : Fields) (bodyOf : String → List Action) : Action :=
  let rest := fs.without ["type"]
  match fs.value "type" with
  | .str tag => ofTag tag rest bodyOf
  | .null => leaf "" rest
  | v => leaf v.text rest

/-- A value that is no object is kept in a leaf without a type. -/
def ofScalar (v : Json) : Action := leaf "" [("value", v)]

mutual
def ofJson : Json → Action
  | .obj fs => ofFields fs (bodyUnder fs)
  | .arr xs => ofScalar (.arr xs)
  | .null => ofScalar .null
  | .bool b => ofScalar (.bool b)
  | .int n => ofScalar (.int n)
  | .float x => ofScalar (.float x)
  | .str s => ofScalar (.str s)

/-- The actions under a key: those of a list, or one if the value holds and is no list. -/
def bodyOfJson : Json → List Action
  | .arr xs => ofItems xs
  | .obj fs => if fs.isEmpty then [] else [ofFields fs (bodyUnder fs)]
  | .null => []
  | .bool b => if b then [ofScalar (.bool b)] else []
  | .int n => if (Json.int n).truthy then [ofScalar (.int n)] else []
  | .float x => if (Json.float x).truthy then [ofScalar (.float x)] else []
  | .str s => if (Json.str s).truthy then [ofScalar (.str s)] else []

def ofItems : List Json → List Action
  | [] => []
  | v :: vs => ofJson v :: ofItems vs

def bodyUnder : List (String × Json) → String → List Action
  | [], _ => []
  | (k, v) :: fs, key => if key = k then bodyOfJson v else bodyUnder fs key
end

/-- The actions of a list that may be null or a single action. -/
def listOfJson : Json → List Action
  | .arr xs => ofItems xs
  | .null => []
  | v => [ofJson v]

end Action

end ScriptFlow
