import ScriptFlow.Proofs.Refusal

/-! When a flow cannot be read back. An entry has to be described by texts and a list, and an action
node that has no type of its own has to find a text in its configuration. Nothing else is refused,
however the edges run; only nodes that a way from an entry meets are looked at. -/

namespace ScriptFlow

/-- The fault of the first step is that of both, then the fault of the second one. -/
theorem bind_eq_elim_or {α β ε : Type} {x : Except ε α} {f : α → Except ε β}
    {first? next? : Option ε} {a : α} {b : β} (hx : x = first?.elim (.ok a) .error)
    (hf : f a = next?.elim (.ok b) .error) :
    x >>= f = (first?.or next?).elim (.ok b) .error := by
  rw [hx]
  cases first? with
  | some e => rfl
  | none => exact hf

theorem elim_eq_error {α ε : Type} {fault? : Option ε} {a : α} {e : ε} :
    fault?.elim (.ok a) Except.error = .error e ↔ fault? = some e := by
  cases fault? <;> simp

namespace Json

def isText : Json → Bool
  | .str _ => true
  | _ => false

def isTextOrNull : Json → Bool
  | .null | .str _ => true
  | _ => false

def isListOrNull : Json → Bool
  | .null | .arr _ => true
  | _ => false

end Json

namespace Checked

variable {α β : Type} {x : Checked α} {is js : List Issue}

/-- A value is accepted if nothing is wrong with it, and else refused with all that is wrong. -/
def Answers (x : Checked α) (is : List Issue) : Prop :=
  is = [] ∧ (∃ a, x = .accepted a) ∨ is ≠ [] ∧ x = .refused is

theorem Answers.map (h : x.Answers is) (f : α → β) : (x.map f).Answers is := by
  rcases h with ⟨his, a, rfl⟩ | ⟨his, rfl⟩
  · exact Or.inl ⟨his, f a, rfl⟩
  · exact Or.inr ⟨his, rfl⟩

theorem Answers.apply {f : Checked (α → β)} (hf : f.Answers is) (hx : x.Answers js) :
    (f.apply x).Answers (is ++ js) := by
  rcases hf with ⟨rfl, f, rfl⟩ | ⟨his, rfl⟩
  · rcases hx with ⟨rfl, a, rfl⟩ | ⟨hjs, rfl⟩
    · exact Or.inl ⟨rfl, f a, rfl⟩
    · exact Or.inr ⟨hjs, rfl⟩
  · have hissues : x.issues = js := by
      rcases hx with ⟨rfl, a, rfl⟩ | ⟨-, rfl⟩ <;> rfl
    refine Or.inr ⟨by simp [his], ?_⟩
    rw [Checked.apply, hissues]

end Checked

/-! What is wrong with the described part of a capability. -/

namespace Capability

/-- What is wrong with the value under a key. -/
def fieldIssues (fs : Fields) (key : String) (fits : Json → Bool) (p : Problem) : List Issue :=
  if fits (fs.value key) then [] else [⟨[.key key], p, fs.value key⟩]

def issues (fs : Fields) : List Issue :=
  fieldIssues fs "name" Json.isTextOrNull .notText ++
    fieldIssues fs "description" Json.isTextOrNull .notText ++
    fieldIssues fs "parameters" Json.isListOrNull .notList

/-- A field answers with the fault of its value; a missing one stands for null. -/
theorem answers_field {α : Type} {fs : Fields} {key : String} {fits : Json → Bool} {p : Problem}
    {absent : α} {check : Json → Checked α} (hnull : fits .null = true)
    (hcheck : ∀ v, fits v = true ∧ (∃ a, check v = .accepted a) ∨
      fits v = false ∧ check v = .refuse p v) :
    (Read.field fs key absent check).Answers (fieldIssues fs key fits p) := by
  unfold Read.field fieldIssues Fields.value
  cases fs.get? key with
  | none => exact Or.inl ⟨if_pos hnull, absent, rfl⟩
  | some v =>
    rcases hcheck v with ⟨hfits, a, ha⟩ | ⟨hfits, hrefuse⟩
    · exact Or.inl ⟨if_pos hfits, a, congrArg (Checked.under (.key key)) ha⟩
    · refine Or.inr ⟨by simp [hfits], ?_⟩
      rw [if_neg (by simp [hfits])]
      exact congrArg (Checked.under (.key key)) hrefuse

theorem answers_text (fs : Fields) (key : String) : (Read.field fs key none readText).Answers
    (fieldIssues fs key Json.isTextOrNull .notText) := by
  refine answers_field rfl fun v => ?_
  cases v with
  | null => exact Or.inl ⟨rfl, _, rfl⟩
  | str s => exact Or.inl ⟨rfl, _, rfl⟩
  | _ => exact Or.inr ⟨rfl, rfl⟩

theorem answers_parameters (fs : Fields) (key : String) :
    (Read.field fs key none readParameters).Answers
      (fieldIssues fs key Json.isListOrNull .notList) := by
  refine answers_field rfl fun v => ?_
  cases v with
  | null => exact Or.inl ⟨rfl, _, rfl⟩
  | arr vs =>
    have hitems : Checked.items Checked.accepted 0 vs = .accepted vs :=
      Checked.items_eq_accepted.mpr (List.forall₂_same.mpr fun _ _ => rfl)
    refine Or.inl ⟨rfl, some vs, ?_⟩
    rw [readParameters, Read.list, hitems]
    · rfl
    · rintro ⟨⟩
  | _ => exact Or.inr ⟨rfl, rfl⟩

theorem answers_ofFieldsWith (fs : Fields) (actions : List Action) :
    (ofFieldsWith fs actions).Answers (issues fs) :=
  (((answers_text fs "name").map _).apply (answers_text fs "description")).apply
    (answers_parameters fs "parameters")

/-- The fault of the described part of a capability. -/
def fault? (fs : Fields) : Option Fault :=
  if issues fs = [] then none else some (.schema "Capability" (issues fs))

theorem exists_orFault_elim (fs : Fields) (actions : List Action) :
    ∃ c, (ofFieldsWith fs actions).orFault "Capability" = (fault? fs).elim (.ok c) .error := by
  rcases answers_ofFieldsWith fs actions with ⟨hnone, c, hc⟩ | ⟨hsome, hrefused⟩
  · exact ⟨c, by rw [hc, fault?, if_pos hnone]; rfl⟩
  · refine ⟨⟨none, none, none, none, [], []⟩, ?_⟩
    rw [hrefused, fault?, if_neg hsome]
    rfl

end Capability

namespace Node

variable {n entry : Node}

/-- An action node that has no type of its own, and under that key no text in its configuration. -/
structure Untyped (n : Node) : Prop where
  kind : n.kind = .action
  actionType : n.actionType = ""
  config : ∃ v, n.config.get? "type" = some v ∧ ∀ t, v ≠ .str t

/-- The fault of the action that a node gives. -/
def leafFault? (n : Node) : Option Fault :=
  if n.kind = .action ∧ n.tag.isText = false then
    some (.schema "LeafAction" [⟨[.key "type"], .notText, n.tag⟩])
  else none

theorem untyped_iff : n.Untyped ↔ n.kind = .action ∧ n.tag.isText = false := by
  constructor
  · rintro ⟨hkind, htype, v, hv, htext⟩
    refine ⟨hkind, ?_⟩
    rw [tag, if_pos htype, hv, Option.getD_some]
    cases v with
    | str t => exact absurd rfl (htext t)
    | _ => rfl
  · rintro ⟨hkind, htag⟩
    unfold tag at htag
    split at htag
    · next htype =>
      refine ⟨hkind, htype, ?_⟩
      cases hv : n.config.get? "type" with
      | none => simp [hv, Json.isText] at htag
      | some v =>
        refine ⟨v, rfl, ?_⟩
        rintro t rfl
        simp [hv, Json.isText] at htag
    · cases htag

theorem leafFault?_eq_none : n.leafFault? = none ↔ ¬ n.Untyped := by
  simp [leafFault?, untyped_iff]

/-- The fault names the value that is no text. -/
theorem of_leafFault? {f : Fault} (h : n.leafFault? = some f) : n.Untyped ∧
    f = .schema "LeafAction" [⟨[.key "type"], .notText, n.config.value "type"⟩] := by
  unfold leafFault? at h
  split at h
  · next hn =>
    obtain ⟨hkind, htype, v, hv, htext⟩ := untyped_iff.mpr hn
    have htag : n.tag = n.config.value "type" := by
      rw [tag, if_pos htype, Fields.value, hv, Option.getD_some, Option.getD_some]
    exact ⟨⟨hkind, htype, v, hv, htext⟩, htag ▸ (Option.some.inj h).symm⟩
  · cases h

/-- The action of an action node, or its fault. -/
theorem exists_leaf_elim (hkind : n.kind = .action) :
    ∃ a, n.leaf = n.leafFault?.elim (.ok a) .error := by
  rw [leaf, n.value_savedConfig_type, leafFault?]
  cases n.tag with
  | str t => exact ⟨_, by rw [if_neg (by simp [Json.isText])]; rfl⟩
  | _ => exact ⟨.leaf "" [], by rw [if_pos ⟨hkind, rfl⟩]; rfl⟩

/-- The name of the capability of an entry: the label if the configured name does not hold. -/
def shownName (entry : Node) : Json :=
  if !(entry.config.value "name").truthy && (entry.presentation.value "label").truthy then
    entry.presentation.value "label"
  else entry.config.value "name"

/-- What describes the capability of an entry can be read. -/
structure Described (entry : Node) : Prop where
  name : entry.shownName.isTextOrNull
  description : (entry.config.value "description").isTextOrNull
  parameters : (entry.config.value "parameters").isListOrNull

theorem value_capabilityFields (entry : Node) :
    (Graph.capabilityFields entry).value "name" = entry.shownName ∧
      ∀ key, key ≠ "name" → (Graph.capabilityFields entry).value key = entry.config.value key := by
  unfold Graph.capabilityFields shownName
  dsimp only
  split
  · refine ⟨?_, fun key hkey => ?_⟩
    · rw [Fields.value, Fields.get?_set_self, Option.getD_some]
    · rw [Fields.value, Fields.get?_set_of_ne _ _ hkey, Fields.value]
  · exact ⟨rfl, fun _ _ => rfl⟩

theorem issues_eq_nil : Capability.issues (Graph.capabilityFields entry) = [] ↔
    entry.Described := by
  obtain ⟨hname, hother⟩ := entry.value_capabilityFields
  have hfield : ∀ {fs : Fields} {key fits p},
      Capability.fieldIssues fs key fits p = [] ↔ fits (fs.value key) = true := by
    simp [Capability.fieldIssues]
  simp only [Capability.issues, List.append_eq_nil_iff, hfield, hname,
    hother "description" (by decide), hother "parameters" (by decide)]
  exact ⟨fun h => ⟨h.1.1, h.1.2, h.2⟩, fun h => ⟨⟨h.name, h.description⟩, h.parameters⟩⟩

end Node

namespace Visit

variable {g : Graph}

/-! The first node of a walk that gives no action is the fault of the walk. Conditions and loops
always give one. -/

mutual
theorem exists_toAction_elim : (v : Visit) → v.Of g →
    ∃ a, v.toAction = (v.nodes.findSome? Node.leafFault?).elim (.ok a) .error
  | plain n, hv => by
    obtain ⟨a, ha⟩ := n.exists_leaf_elim hv.2
    exact ⟨a, by rw [toAction, ha, nodes, List.findSome?_singleton]⟩
  | fork n whenTrue whenFalse, hv => by
    obtain ⟨ts, ht⟩ := exists_listToActions_elim whenTrue hv.2.1
    obtain ⟨es, he⟩ := exists_listToActions_elim whenFalse hv.2.2
    have hn : n.leafFault? = none := by simp [Node.leafFault?, hv.1.2]
    refine ⟨n.branch ts es, ?_⟩
    rw [nodes, List.findSome?_cons, hn, List.findSome?_append]
    exact bind_eq_elim_or ht (bind_eq_elim he _)
  | loop n body, hv => by
    obtain ⟨bs, hb⟩ := exists_listToActions_elim body hv.2
    have hn : n.leafFault? = none := by simp [Node.leafFault?, hv.1.2]
    refine ⟨n.loop bs, ?_⟩
    rw [nodes, List.findSome?_cons, hn]
    exact bind_eq_elim hb _

theorem exists_listToActions_elim : (vs : List Visit) → ListOf g vs →
    ∃ as, listToActions vs = ((listNodes vs).findSome? Node.leafFault?).elim (.ok as) .error
  | [], _ => ⟨[], rfl⟩
  | v :: vs, hv => by
    obtain ⟨a, ha⟩ := exists_toAction_elim v hv.1
    obtain ⟨as, has⟩ := exists_listToActions_elim vs hv.2
    refine ⟨a :: as, ?_⟩
    rw [listNodes, List.findSome?_append]
    exact bind_eq_elim_or ha (bind_eq_elim has _)
end

end Visit

namespace Graph

/-- The fault of the capability of an entry: that of its first action that has one, then that of its
description. -/
def entryFault? (g : Graph) (entry : Node) : Option Fault :=
  ((Visit.listNodes (g.walkFrom entry)).findSome? Node.leafFault?).or
    (Capability.fault? (capabilityFields entry))

variable {g : Graph} {entry : Node}

theorem exists_capability_elim (g : Graph) (entry : Node) :
    ∃ c, g.capability entry = (g.entryFault? entry).elim (.ok c) .error := by
  obtain ⟨as, has⟩ := Visit.exists_listToActions_elim _ (g.listOf_walk [] [entry.id] _)
  obtain ⟨c, hc⟩ := Capability.exists_orFault_elim (capabilityFields entry) as
  exact ⟨c, bind_eq_elim_or has hc⟩

/-- The capability of an entry cannot be read: its description, or an action that its walk meets. -/
def Unreadable (g : Graph) (entry : Node) : Prop :=
  ¬ entry.Described ∨ ∃ n, g.Meets entry n ∧ n.Untyped

theorem entryFault?_eq_none (hentry : entry ∈ g.entries) :
    g.entryFault? entry = none ↔ ¬ g.Unreadable entry := by
  simp only [entryFault?, Option.or_eq_none_iff, List.findSome?_eq_none_iff, Capability.fault?,
    ite_eq_left_iff, Node.leafFault?_eq_none, mem_walkFrom_iff_meets hentry, Unreadable,
    ← Node.issues_eq_nil]
  grind

/-- The fault of an entry is that of an action node that is met, or tells all that is wrong with its
description. -/
theorem of_entryFault? {f : Fault} (hentry : entry ∈ g.entries)
    (h : g.entryFault? entry = some f) :
    (∃ n, g.Meets entry n ∧ n.Untyped ∧
      f = .schema "LeafAction" [⟨[.key "type"], .notText, n.config.value "type"⟩]) ∨
    ¬ entry.Described ∧ f = .schema "Capability" (Capability.issues (capabilityFields entry)) := by
  rcases Option.or_eq_some_iff.mp h with h | ⟨-, h⟩
  · obtain ⟨n, hn, hf⟩ := List.exists_of_findSome?_eq_some h
    exact Or.inl ⟨n, (mem_walkFrom_iff_meets hentry).mp hn, Node.of_leafFault? hf⟩
  · unfold Capability.fault? at h
    split at h
    · cases h
    · next hissues =>
      exact Or.inr ⟨fun hd => hissues (Node.issues_eq_nil.mpr hd), (Option.some.inj h).symm⟩

theorem exists_capabilities_elim (g : Graph) : ∃ cs,
    g.capabilities = (g.entries.findSome? g.entryFault?).elim (.ok cs) .error :=
  mapM_eq_elim g.exists_capability_elim g.entries

/-- Null stands for an object without fields. -/
theorem documentExtra_eq {base : Json} (h : base = .null ∨ ∃ fs, base = .obj fs) :
    documentExtra base = .ok ((base.fields?.getD []).without ["capabilities"]) := by
  rcases h with rfl | ⟨fs, rfl⟩
  · rfl
  · rfl

/-- A flow cannot be read back exactly if the capability of an entry cannot. The fault is then that
of an untyped action node that an entry meets, or tells what is wrong with the description of an
entry. Every other flow gives a document with one capability for each entry, in node order. -/
theorem rebuild_fails_iff (g : Graph) {base : Json} (hbase : base = .null ∨ ∃ fs, base = .obj fs) :
    ((∃ f, g.rebuild base = .error f) ↔ ∃ entry ∈ g.entries, g.Unreadable entry) ∧
      (∀ f, g.rebuild base = .error f → ∃ entry ∈ g.entries,
        (∃ n, g.Meets entry n ∧ n.Untyped ∧
          f = .schema "LeafAction" [⟨[.key "type"], .notText, n.config.value "type"⟩]) ∨
        ¬ entry.Described ∧
          f = .schema "Capability" (Capability.issues (capabilityFields entry))) ∧
      ((∀ entry ∈ g.entries, ¬ g.Unreadable entry) → ∃ d, g.rebuild base = .ok d ∧
        List.Forall₂ (fun entry c => g.capability entry = .ok c) g.entries d.capabilities ∧
          d.extra = (base.fields?.getD []).without ["capabilities"]) := by
  obtain ⟨cs, hcs⟩ := g.exists_capabilities_elim
  have hrebuild : g.rebuild base = (g.entries.findSome? g.entryFault?).elim
      (.ok ⟨cs, (base.fields?.getD []).without ["capabilities"]⟩) .error := by
    rw [rebuild, documentExtra_eq hbase]
    exact bind_eq_elim hcs fun cs => Document.mk cs ((base.fields?.getD []).without ["capabilities"])
  have hnone : g.entries.findSome? g.entryFault? = none ↔
      ∀ entry ∈ g.entries, ¬ g.Unreadable entry := by
    rw [List.findSome?_eq_none_iff]
    exact forall₂_congr fun entry hentry => entryFault?_eq_none hentry
  refine ⟨?_, fun f hf => ?_, fun h => ?_⟩
  · simp only [hrebuild, elim_eq_error, ← Option.ne_none_iff_exists', ne_eq, hnone, not_forall,
      not_not, exists_prop]
  · rw [hrebuild, elim_eq_error] at hf
    obtain ⟨entry, hentry, hf⟩ := List.exists_of_findSome?_eq_some hf
    exact ⟨entry, hentry, of_entryFault? hentry hf⟩
  · rw [hnone.mpr h] at hrebuild hcs
    exact ⟨_, hrebuild, capabilities_eq_ok.mp hcs, rfl⟩

/-- A loop whose body runs back to it, with an action that has a number for its type. -/
def untagged : Graph where
  nodes := [.createEntry "node_1" .zero (.str "main") (.str ""),
    ⟨"node_2", .loop, "while", [("type", .str "while")], .zero, [], [], []⟩,
    ⟨"node_3", .action, "", [("type", .int 7)], .zero, [], [], []⟩]
  edges := [.structural "node_1" "node_2" .none, .structural "node_2" "node_3" .body,
    .structural "node_3" "node_2" .none]

theorem rebuild_fails_iff_untagged : ∃ fs, Json.obj [] = .obj fs ∧
    ∃ f, untagged.rebuild (.obj []) = .error f := by
  refine ⟨[], rfl, ((untagged.rebuild_fails_iff (Or.inr ⟨[], rfl⟩)).1).mpr ?_⟩
  refine ⟨untagged.nodes[0], List.mem_singleton_self _, Or.inr ⟨untagged.nodes[2], ?_, ?_⟩⟩
  · refine ⟨"node_2", ⟨rfl, by decide⟩, .step (m := untagged.nodes[1]) rfl (by decide) (by decide)
      (Or.inl rfl) (.here rfl (by decide) (by decide))⟩
  · refine ⟨rfl, rfl, _, rfl, fun t => ?_⟩
    rintro ⟨⟩

end Graph

end ScriptFlow
