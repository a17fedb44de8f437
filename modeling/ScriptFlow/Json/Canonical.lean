import ScriptFlow.Json.Writer

/-!
The canonical text of a value: the fields of every object sorted by key. Values that differ only in
the order of fields have one canonical text.
-/

namespace ScriptFlow.Json

def sortFields (fs : Fields) : Fields := fs.mergeSort fun f g => decide (f.1 ≤ g.1)

mutual
def sorted : Json → Json
  | .arr xs => .arr (sortedItems xs)
  | .obj fs => .obj (sortFields (sortedFields fs))
  | .null => .null
  | .bool b => .bool b
  | .int n => .int n
  | .float x => .float x
  | .str s => .str s

def sortedItems : List Json → List Json
  | [] => []
  | x :: xs => sorted x :: sortedItems xs

def sortedFields : List (String × Json) → List (String × Json)
  | [] => []
  | (k, v) :: fs => (k, sorted v) :: sortedFields fs
end

def canonicalChars (v : Json) : List Char := v.sorted.chars

end ScriptFlow.Json
