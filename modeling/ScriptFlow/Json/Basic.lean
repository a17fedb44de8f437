/-!
JSON values. An object is a list of fields in the order they were written. Integers are unbounded
and stay apart from floats.
-/

namespace ScriptFlow

/-- A float can be infinite, as the one of `1e999`, or not a number. A string is a sequence of
Unicode scalars, so the lone surrogate that a reader can make of `"\ud800"` is in no value. -/
inductive Json where
  | null
  | bool (b : Bool)
  | int (n : Int)
  | float (x : Float)
  | str (s : String)
  | arr (items : List Json)
  | obj (fields : List (String × Json))

/-- The fields of an object, in order. -/
abbrev Fields := List (String × Json)

namespace Fields

def get? (fs : Fields) (key : String) : Option Json := fs.lookup key

/-- The value under a key, null when there is none. -/
def value (fs : Fields) (key : String) : Json := (get? fs key).getD .null

def has (fs : Fields) (key : String) : Bool := (get? fs key).isSome

/-- Writes a key in its place, or at the end when it is new. -/
def set (fs : Fields) (key : String) (v : Json) : Fields :=
  match fs with
  | [] => [(key, v)]
  | f :: rest => if f.1 = key then (key, v) :: rest else f :: set rest key v

/-- Writes the fields of `changes` over `fs`, in order. -/
def update (fs changes : Fields) : Fields :=
  changes.foldl (fun acc f => set acc f.1 f.2) fs

def without (fs : Fields) (keys : List String) : Fields :=
  fs.filter fun f => !keys.contains f.1

/-- Keeps the first place and the last value of a key that is written twice. -/
def ofWritten (fs : Fields) : Fields := update [] fs

end Fields

namespace Json

/-- The fields of an object; none for any other value. -/
def fields? : Json → Option Fields
  | .obj fs => some fs
  | _ => none

/-- Empty text, empty lists and objects, zero, false and null do not hold; all else does. -/
def truthy : Json → Bool
  | .null => false
  | .bool b => b
  | .int n => n != 0
  | .float x => x != 0
  | .str s => s != ""
  | .arr xs => !xs.isEmpty
  | .obj fs => !fs.isEmpty

/-- The value when it holds, else the other one. -/
def orElse (v w : Json) : Json := if v.truthy then v else w

end Json

/-! Object fields as a map from keys to values. -/

namespace Fields

theorem get?_nil (k : String) : get? [] k = none := rfl

theorem get?_cons (f : String × Json) (fs : Fields) (k : String) :
    get? (f :: fs) k = if k = f.1 then some f.2 else get? fs k := by
  obtain ⟨k', v⟩ := f
  by_cases h : k = k'
  · simp [get?, h]
  · simp [get?, List.lookup_cons, h, beq_eq_false_iff_ne.mpr h]

theorem get?_set_self (fs : Fields) (k : String) (v : Json) : get? (set fs k v) k = some v := by
  induction fs with
  | nil => simp [set, get?_cons]
  | cons f fs ih =>
    unfold set
    split
    · simp [get?_cons]
    · next h => simp [get?_cons, ih, Ne.symm h]

theorem get?_set_of_ne (fs : Fields) {k k' : String} (v : Json) (h : k' ≠ k) :
    get? (set fs k v) k' = get? fs k' := by
  induction fs with
  | nil => simp [set, get?_cons, h, get?_nil]
  | cons f fs ih =>
    unfold set
    split
    · next hf => subst hf; simp [get?_cons, h]
    · simp [get?_cons, ih]

theorem get?_without (fs : Fields) (keys : List String) (k : String) :
    get? (without fs keys) k = if k ∈ keys then none else get? fs k := by
  induction fs with
  | nil => simp [without, get?_nil]
  | cons f fs ih =>
    have hw : without (f :: fs) keys =
        if f.1 ∈ keys then without fs keys else f :: without fs keys := by
      by_cases hf : f.1 ∈ keys <;> simp [without, hf]
    rw [hw, get?_cons]
    by_cases hf : f.1 ∈ keys <;> by_cases hk : k = f.1
    · subst hk
      simp [hf, ih]
    · simp [hf, hk, ih]
    · subst hk
      simp [hf, get?_cons]
    · simp [hf, hk, get?_cons, ih]

end Fields

end ScriptFlow
