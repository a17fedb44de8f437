import ScriptFlow.Json.Equality
import ScriptFlow.Script.Action

/-!
Equality of action trees is decidable.
-/

namespace ScriptFlow

deriving instance DecidableEq for LoopHead

namespace Action

mutual
def decEq : (a b : Action) → Decidable (a = b)
  | .leaf s fs, .leaf t gs => decidable_of_iff (s = t ∧ fs = gs) (by simp)
  | .branch c e a b, .branch d f x y =>
    @decidable_of_iff _ ((c = d ∧ e = f) ∧ a = x ∧ b = y) (by simp [and_assoc])
      (@instDecidableAnd _ _ inferInstance
        (@instDecidableAnd _ _ (decEqList a x) (decEqList b y)))
  | .loop h e a, .loop k f x =>
    @decidable_of_iff _ ((h = k ∧ e = f) ∧ a = x) (by simp [and_assoc])
      (@instDecidableAnd _ _ inferInstance (decEqList a x))
  | .leaf .., .branch .. | .leaf .., .loop .. => isFalse (by simp)
  | .branch .., .leaf .. | .branch .., .loop .. => isFalse (by simp)
  | .loop .., .leaf .. | .loop .., .branch .. => isFalse (by simp)

def decEqList : (as bs : List Action) → Decidable (as = bs)
  | [], [] => isTrue rfl
  | a :: as, b :: bs =>
    @decidable_of_iff _ (a = b ∧ as = bs) (by simp)
      (@instDecidableAnd _ _ (decEq a b) (decEqList as bs))
  | [], _ :: _ => isFalse (by simp)
  | _ :: _, [] => isFalse (by simp)
end

instance : DecidableEq Action := decEq

end Action

end ScriptFlow
