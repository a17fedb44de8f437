import ScriptFlow.Proofs.Advisory
import ScriptFlow.Proofs.Refusal
import ScriptFlow.Proofs.Valid

/-! What is wrong with a drawn flow, told by its document: that it has no capability, or else the
required fields that its leaves are missing, leaf by leaf in pre-order. Nothing else is ever wrong
with it, and loading it finds the same. -/

namespace ScriptFlow

namespace RequiredField

/-- The fields do not hold what is required. A number is required to be one; anything else is
required to be there and not to be empty. -/
def Unfilled (r : RequiredField) (fields : Fields) : Prop :=
  match r.kind with
  | .number => (∀ n, fields.value r.key ≠ .int n) ∧ ∀ x, fields.value r.key ≠ .float x
  | .text | .variableName => fields.value r.key = .null ∨ fields.value r.key = .str "" ∨
      fields.value r.key = .arr [] ∨ fields.value r.key = .obj []

theorem isMissing_iff {r : RequiredField} {fields : Fields} :
    r.isMissing fields = true ↔ r.Unfilled fields := by
  unfold isMissing Unfilled
  cases r.kind <;> cases fields.value r.key <;> simp

instance (r : RequiredField) (fields : Fields) : Decidable (r.Unfilled fields) :=
  decidable_of_iff _ isMissing_iff

end RequiredField

theorem Catalog.required_loop (head : LoopHead) : required head.type = [] := by
  cases head <;> rfl

/-- The required fields that are missing where a leaf stands, for the node with an id. -/
def missingAt (id : String) : Option Action → List FlowError
  | some (.leaf type fields) =>
    ((Catalog.required type).filter (·.Unfilled fields)).map (.missingField id)
  | _ => []

theorem Node.fieldErrors_of_standsFor {n : Node} {a? : Option Action} (h : n.StandsFor a?) :
    n.fieldErrors = missingAt n.id a? := by
  unfold fieldErrors
  cases a? with
  | none =>
    rw [h.2]
    rfl
  | some a =>
    obtain ⟨-, htype, hconfig⟩ := h
    rw [htype, hconfig]
    cases a with
    | leaf type fields =>
      refine congrArg (List.map _) (List.filter_congr fun r hr => ?_)
      have hget : (Action.leaf type fields).config.get? r.key = fields.get? r.key := by
        rw [Action.config, Fields.get?_cons, if_neg (Catalog.key_ne_of_required hr).1]
      rw [RequiredField.isMissing_congr hget, Bool.eq_iff_iff, RequiredField.isMissing_iff,
        decide_eq_true_iff]
    | branch => rfl
    | loop head extra body =>
      rw [Action.type, Catalog.required_loop]
      rfl

namespace Document

/-- The required fields that the leaves of a document are missing, in pre-order. -/
def missing (stem : String) (d : Document) : List FlowError :=
  (d.preorder.zipIdx 1).flatMap fun p => missingAt (nodeId stem p.2) p.1

/-- What is wrong with the flow of a document. -/
def errors (stem : String) (d : Document) : List FlowError :=
  if d.capabilities = [] then [.noEntry] else d.missing stem

end Document

section

variable {d : Document} {stem : String} {g : Graph}

/-- A drawn flow has the errors of its document. -/
theorem validate_eq_errors (h : d.draw stem = .ok g) : g.validate = d.errors stem := by
  have hnodes : g.nodes.flatMap Node.fieldErrors = d.missing stem := by
    rw [List.flatMap_def, Document.missing, List.flatMap_def]
    refine congrArg List.flatten (map_eq_of_forall₂ (standsFor_of_draw h) fun p n hpn => ?_).symm
    rw [Node.fieldErrors_of_standsFor hpn.2, hpn.1]
  rw [validate_draw h, hnodes, Document.errors]
  by_cases hd : d.capabilities = []
  · simp [hd, Document.missing, Document.preorder]
  · rw [if_neg hd, if_neg hd, List.nil_append]

/-- The check of a drawn flow finds that there is no capability, or else the required fields that
the leaves are missing, in pre-order, and so does the check of the loaded flow. The nodes stand for
the entries and the actions in this order. -/
theorem errors_of_draw_eq (h : d.draw stem = .ok g) :
    g.validate = d.errors stem ∧
      List.Forall₂ (fun (p : Option Action × Nat) (n : Node) =>
        n.id = nodeId stem p.2 ∧ n.StandsFor p.1) (d.preorder.zipIdx 1) g.nodes ∧
      ∀ settings, ∃ loaded, d.load settings = .ok loaded ∧
        loaded.validate = d.errors defaultStem := by
  refine ⟨validate_eq_errors h, standsFor_of_draw h, fun settings => ?_⟩
  obtain ⟨g', hg'⟩ := Document.exists_draw_of_draw h defaultStem
  refine ⟨_, load_of_draw hg' settings, ?_⟩
  exact (g'.agreesWith_annotate_layout _ _).validate_eq.symm.trans (validate_eq_errors hg')

end

/-- Two capabilities. The first one has a click without a target and a pause whose length is a truth
value, under the two outcomes of an `if`, and a call without a client, the second one a variable
without a name. -/
def Document.unfilled : Document :=
  ⟨[⟨some "main", none, none, none, [],
      [.branch (some (.str "ok")) [] [.leaf "click" []] [.leaf "wait" [("ms", .bool true)]],
       .leaf "callClient" [("client", .str ""), ("method", .str "list")]]⟩,
    ⟨some "after", none, none, none, [], [.leaf "set" [("variable", .arr [])]]⟩], []⟩

theorem errors_of_draw_eq_unfilled :
    ∃ g, Document.unfilled.draw defaultStem = .ok g ∧
      g.validate = [.missingField "node_3" ⟨"target", .text⟩, .missingField "node_4" ⟨"ms", .number⟩,
        .missingField "node_5" ⟨"client", .text⟩,
        .missingField "node_7" ⟨"variable", .variableName⟩] ∧
      ∃ loaded, Document.unfilled.load {} = .ok loaded ∧ loaded.validate = g.validate := by
  obtain ⟨g, hg⟩ : ∃ g, Document.unfilled.draw defaultStem = .ok g := ⟨_, rfl⟩
  obtain ⟨herrors, -, hload⟩ := errors_of_draw_eq hg
  obtain ⟨loaded, hloaded, hsame⟩ := hload {}
  exact ⟨g, hg, herrors.trans (by decide), loaded, hloaded, hsame.trans herrors.symm⟩

end ScriptFlow
