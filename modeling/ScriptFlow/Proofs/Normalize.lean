import ScriptFlow.Script.Outline

/-! The actions after an `if` moved into its branches. A flow holds no more than this of a script:
what comes after an `if` is read back once in each of its branches. -/

namespace ScriptFlow

namespace Action

theorem listSize_append (as bs : List Action) :
    listSize (as ++ bs) = listSize as + listSize bs := by
  induction as with
  | nil => simp [listSize]
  | cons a as ih => simp [listSize, ih, Nat.add_assoc]

/-- Every `if` takes the actions after it into its branches, an empty branch excepted. -/
def normalize : List Action → List Action
  | [] => []
  | leaf type fields :: as => leaf type fields :: normalize as
  | branch condition extra thenBody elseBody :: as =>
    [branch condition extra (if thenBody.isEmpty then [] else normalize (thenBody ++ as))
      (if elseBody.isEmpty then [] else normalize (elseBody ++ as))]
  | loop head extra body :: as => loop head extra (normalize body) :: normalize as
termination_by as => listSize as
decreasing_by all_goals simp only [listSize, size, listSize_append]; omega

def isIf : Action → Bool
  | branch .. => true
  | leaf .. => false
  | loop .. => false

mutual
/-- Every `if` in an action is the last of its list. -/
def IfsLast : Action → Prop
  | leaf .. => True
  | branch _ _ thenBody elseBody => ListIfsLast thenBody ∧ ListIfsLast elseBody
  | loop _ _ body => ListIfsLast body

def ListIfsLast : List Action → Prop
  | [] => True
  | a :: as => a.IfsLast ∧ (a.isIf → as = []) ∧ ListIfsLast as
end

theorem ite_isEmpty_normalize (as : List Action) :
    (if as.isEmpty then [] else normalize as) = normalize as := by
  cases as with
  | nil => rw [normalize]; rfl
  | cons a as => rfl

theorem normalize_eq_self {as : List Action} (h : ListIfsLast as) : normalize as = as := by
  fun_induction normalize as with
  | case1 => rfl
  | case2 type fields as ih => rw [ih h.2.2]
  | case3 condition extra thenBody elseBody as iht ihe =>
    obtain ⟨⟨ht, he⟩, has, -⟩ := h
    obtain rfl := has rfl
    simp only [List.append_nil] at iht ihe ⊢
    rw [ite_isEmpty_normalize, ite_isEmpty_normalize, iht ht, ihe he]
  | case4 head extra body as ihb ih =>
    obtain ⟨hb, -, has⟩ := h
    rw [ihb hb, ih has]

/-- In a normal list no action comes after an `if`. -/
theorem listIfsLast_normalize (as : List Action) : ListIfsLast (normalize as) := by
  fun_induction normalize as with
  | case1 => trivial
  | case2 type fields as ih => exact ⟨trivial, by simp [isIf], ih⟩
  | case3 condition extra thenBody elseBody as iht ihe =>
    refine ⟨⟨?_, ?_⟩, fun _ => rfl, trivial⟩
    · split
      · trivial
      · exact iht
    · split
      · trivial
      · exact ihe
  | case4 head extra body as ihb ih => exact ⟨ihb, by simp [isIf], ih⟩

end Action

namespace Document

def normalize (d : Document) : Document :=
  { d with
    capabilities := d.capabilities.map fun c => { c with actions := Action.normalize c.actions } }

end Document

end ScriptFlow
