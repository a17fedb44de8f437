import ScriptFlow.Json.Basic

/-!
What a value loses on its way out: the fields of some keys, which are left out, and some numbers, in
whose place there is null.
-/

namespace ScriptFlow

namespace Json

/-- A key that the encoder of answers leaves out, as it does for the state of database records. -/
def isWithheld (key : String) : Bool := "_sa".toList.isPrefixOf key.toList

/-- Which keys and which numbers are let through. No key is stopped that is not withheld, so all
those are let through that the program writes itself. -/
structure Sieve where
  key : String → Bool
  number : Float → Bool
  key_of_not_withheld : ∀ k, isWithheld k = false → key k = true

namespace Sieve

/-- Stops the withheld keys. -/
def clear : Sieve := ⟨fun k => !isWithheld k, fun _ => true, fun _ h => congrArg not h⟩

/-- Stops the numbers that are not finite. -/
def finite : Sieve := ⟨fun _ => true, Float.isFinite, fun _ _ => rfl⟩

end Sieve

mutual
/-- What is left of a value, at every depth. -/
def sifted (σ : Sieve) : Json → Json
  | .float x => if σ.number x then .float x else .null
  | .arr vs => .arr (siftedItems σ vs)
  | .obj fs => .obj (siftedFields σ fs)
  | .null => .null
  | .bool b => .bool b
  | .int n => .int n
  | .str s => .str s

def siftedItems (σ : Sieve) : List Json → List Json
  | [] => []
  | v :: vs => v.sifted σ :: siftedItems σ vs

def siftedFields (σ : Sieve) : List (String × Json) → List (String × Json)
  | [] => []
  | (k, v) :: fs =>
    if σ.key k then (k, v.sifted σ) :: siftedFields σ fs else siftedFields σ fs
end

mutual
/-- Whether all keys and all numbers in the value are let through, at every depth. -/
def passes (σ : Sieve) : Json → Bool
  | .float x => σ.number x
  | .arr vs => passesItems σ vs
  | .obj fs => passesFields σ fs
  | .null | .bool _ | .int _ | .str _ => true

def passesItems (σ : Sieve) : List Json → Bool
  | [] => true
  | v :: vs => v.passes σ && passesItems σ vs

def passesFields (σ : Sieve) : List (String × Json) → Bool
  | [] => true
  | (k, v) :: fs => σ.key k && (v.passes σ && passesFields σ fs)
end

/-- A value as it is encoded for an answer: without the fields of withheld keys. -/
def encoded (v : Json) : Json := v.sifted .clear

/-- Whether every number in the value is finite. -/
def isFinite (v : Json) : Bool := v.passes .finite

end Json

/-- The fields of a record that can hold any value, as they are dumped: with null for a number that
is not finite. -/
def Fields.dumped (fs : Fields) : Fields := Json.siftedFields .finite fs

end ScriptFlow
