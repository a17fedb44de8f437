import ScriptFlow.Proofs.Contribution
import ScriptFlow.Proofs.Requests
import ScriptFlow.Proofs.Valid

/-! Opening a script that was saved. The check of a flow goes by the type of a node, the making of an
action by the kind of the node, and reading by the type that was written, which is that of the
configuration if the node has none. Where these differ, a flow without errors is saved as a script
that is read as another one, or whose flow has errors. -/

namespace ScriptFlow

namespace Node

variable {n : Node} {a : Action}

/-- The type that is written of a node: its own, or that of its configuration if it has none. -/
def tag (n : Node) : Json :=
  if n.actionType = "" then (n.config.get? "type").getD (.str "") else .str n.actionType

/-- An action node is not written with the type of an action that holds others. -/
def TagFits (n : Node) : Prop :=
  n.kind = .action → ∀ t ∈ Action.controlTypes, n.tag ≠ .str t

/-- An action node without a type of its own has what the written type requires. -/
def Filled (n : Node) : Prop :=
  n.kind = .action → n.actionType = "" → ∀ t, n.tag = .str t →
    ∀ r ∈ Catalog.required t, r.isMissing n.config = false

/-- A note may be written over what is saved of a node besides its type. -/
theorem savedConfig_eq (n : Node) : n.savedConfig = n.config.set "type" n.tag ∨
    ∃ payload, n.savedConfig = (n.config.set "type" n.tag).set noteKey payload := by
  unfold savedConfig
  dsimp only
  rw [← tag]
  split
  · split
    · exact Or.inl rfl
    · exact Or.inr ⟨_, rfl⟩
  · exact Or.inl rfl

theorem get?_savedConfig_type (n : Node) : n.savedConfig.get? "type" = some n.tag := by
  have hne : "type" ≠ noteKey := by decide
  rcases n.savedConfig_eq with h | ⟨payload, h⟩
  · rw [h, Fields.get?_set_self]
  · rw [h, Fields.get?_set_of_ne _ _ hne, Fields.get?_set_self]

theorem get?_savedConfig {key : String} (ht : key ≠ "type") (hk : key ≠ noteKey) :
    n.savedConfig.get? key = n.config.get? key := by
  rcases n.savedConfig_eq with h | ⟨payload, h⟩
  · rw [h, Fields.get?_set_of_ne _ _ ht]
  · rw [h, Fields.get?_set_of_ne _ _ hk, Fields.get?_set_of_ne _ _ ht]

theorem value_savedConfig_type (n : Node) : n.savedConfig.value "type" = n.tag := by
  rw [Fields.value, n.get?_savedConfig_type, Option.getD_some]

theorem leaf_eq_ok : n.leaf = .ok a ↔
    ∃ t, n.tag = .str t ∧ a = .leaf t (n.savedConfig.without ["type"]) := by
  rw [leaf, n.value_savedConfig_type]
  cases n.tag <;> simp [eq_comm]

end Node

theorem Catalog.key_ne_of_required {type : String} {r : RequiredField} (h : r ∈ required type) :
    r.key ≠ "type" ∧ r.key ≠ noteKey := by
  have hblocks : ∀ b ∈ blocks, ∀ r ∈ b.required, r.key ≠ "type" ∧ r.key ≠ noteKey := by decide
  unfold required at h
  cases hb : block? type with
  | none =>
    rw [hb] at h
    exact absurd h List.not_mem_nil
  | some b =>
    rw [hb] at h
    exact hblocks b (List.mem_of_find?_eq_some hb) r h

theorem RequiredField.isMissing_congr {r : RequiredField} {fs gs : Fields}
    (h : fs.get? r.key = gs.get? r.key) : r.isMissing fs = r.isMissing gs := by
  simp only [isMissing, Fields.value, h]

namespace Node

variable {n : Node} {a : Action}

/-- What is written under a required key is what the node has there. -/
theorem isMissing_saved {t : String} {r : RequiredField} (hr : r ∈ Catalog.required t) :
    r.isMissing (Action.leaf t (n.savedConfig.without ["type"])).config = r.isMissing n.config := by
  obtain ⟨ht, hk⟩ := Catalog.key_ne_of_required hr
  refine RequiredField.isMissing_congr ?_
  rw [Action.config, Fields.get?_cons, if_neg ht, Fields.get?_without, if_neg (by simpa using ht),
    get?_savedConfig ht hk]

namespace Reads

theorem not_isEntry (h : n.Reads a) : ¬ n.isEntry := by
  cases h with
  | leaf hkind => simp [isEntry, hkind]
  | branch hkind => simp [isEntry, hkind]
  | loop hkind => simp [isEntry, hkind]

/-- What is read back of a node has keys of its own. -/
theorem keysApart (h : n.Reads a) : a.KeysApart := by
  cases h with
  | leaf _ h =>
    obtain ⟨t, -, rfl⟩ := leaf_eq_ok.mp h
    exact fun _ => Fields.not_mem_of_mem_without
  | branch => exact fun _ => Fields.not_mem_of_mem_without
  | @loop body =>
    obtain ⟨head, extra, h, hkeys⟩ := n.exists_loop_eq body
    exact h ▸ hkeys

theorem tagFits_iff (h : n.Reads a) : a.TagFits ↔ n.TagFits := by
  cases h with
  | leaf hkind h =>
    obtain ⟨t, ht, rfl⟩ := leaf_eq_ok.mp h
    constructor
    · intro hfits _ t' ht' he
      rw [ht] at he
      exact hfits (Json.str.inj he ▸ ht')
    · intro hfits hmem
      exact hfits hkind t hmem ht
  | branch hkind => exact iff_of_true trivial fun hk => by simp [hkind] at hk
  | @loop body hkind =>
    obtain ⟨head, extra, h, -⟩ := n.exists_loop_eq body
    exact h ▸ iff_of_true trivial fun hk => by simp [hkind] at hk

/-- The check says that a node has what its own type requires, and nothing of the type in its
configuration. -/
theorem complete_iff (h : n.Reads a) (hf : n.fieldErrors = []) : a.Complete ↔ n.Filled := by
  cases h with
  | leaf hkind h =>
    obtain ⟨t, ht, rfl⟩ := leaf_eq_ok.mp h
    have hcomplete : (Action.leaf t (n.savedConfig.without ["type"])).Complete ↔
        ∀ r ∈ Catalog.required t, r.isMissing n.config = false :=
      forall₂_congr fun r hr => by rw [isMissing_saved (n := n) (t := t) hr]
    rw [hcomplete]
    by_cases htype : n.actionType = ""
    · constructor
      · intro hc _ _ t' ht'
        rw [ht] at ht'
        cases ht'
        exact hc
      · intro hfilled
        exact hfilled hkind htype t ht
    · rw [tag, if_neg htype] at ht
      cases ht
      exact iff_of_true (fieldErrors_eq_nil.mp hf) fun _ he => absurd he htype
  | branch hkind =>
    exact iff_of_true (fun r hr => absurd hr List.not_mem_nil) fun hk => by simp [hkind] at hk
  | @loop body hkind =>
    obtain ⟨head, extra, h, -⟩ := n.exists_loop_eq body
    rw [h]
    refine iff_of_true ?_ fun hk => by simp [hkind] at hk
    cases head <;> exact fun r hr => absurd hr List.not_mem_nil

end Reads

end Node

/-- What holds of all items on one side holds of all on the other, if it does pair by pair. -/
theorem forall_iff_of_forall₂ {α β : Type} {R : α → β → Prop} {P : β → Prop} {Q : α → Prop}
    {xs : List α} {ys : List β} (h : List.Forall₂ R xs ys)
    (hPQ : ∀ x y, R x y → (P y ↔ Q x)) : (∀ y ∈ ys, P y) ↔ ∀ x ∈ xs, Q x := by
  induction h with
  | nil => simp
  | @cons x y xs ys hxy _ ih => rw [List.forall_mem_cons, List.forall_mem_cons, hPQ x y hxy, ih]

namespace Graph

variable {g : Graph} {d : Document}

/-- A walk from an entry meets the node. -/
def Met (g : Graph) (n : Node) : Prop :=
  ∃ entry ∈ g.entries, n ∈ Visit.listNodes (g.walkFrom entry)

/-- A flow without errors has an entry, and no node lacks a field that its type requires. -/
theorem of_validate_eq_nil (h : g.validate = []) :
    g.entries ≠ [] ∧ ∀ n ∈ g.nodes, ¬ n.isEntry → n.fieldErrors = [] := by
  obtain ⟨hentry, -, hnodes⟩ := validate_eq_nil.mp h
  constructor
  · intro hnil
    obtain ⟨n, hn, he⟩ := List.any_eq_true.mp hentry
    have hmem : n ∈ g.entries := List.mem_filter.mpr ⟨hn, he⟩
    rw [hnil] at hmem
    exact absurd hmem List.not_mem_nil
  · intro n hn he
    have herrors := hnodes n hn
    rw [Node.errors, if_neg he] at herrors
    exact (List.append_eq_nil_iff.mp herrors).2

/-- A property of all actions of a script that is read back, by the nodes that the walks meet. -/
theorem every_iff_met {P : Action → Prop} {Q : Node → Prop}
    (hcs : List.Forall₂ (fun entry c => g.capability entry = .ok c) g.entries d.capabilities)
    (hPQ : ∀ n ∈ g.nodes, ∀ a, n.Reads a → (P a ↔ Q n)) : d.Every P ↔ ∀ n, g.Met n → Q n := by
  have hmet : (∀ n, g.Met n → Q n) ↔
      ∀ entry ∈ g.entries, ∀ n ∈ Visit.listNodes (g.walkFrom entry), Q n := by
    constructor
    · exact fun h entry he n hn => h n ⟨entry, he, hn⟩
    · intro h n hn
      obtain ⟨entry, he, hn⟩ := hn
      exact h entry he n hn
  rw [hmet]
  refine forall_iff_of_forall₂ hcs fun entry c hc => ?_
  rw [Action.listEvery_iff]
  exact forall_iff_of_forall₂ (reads_of_capability hc) fun n a h => hPQ n h.1 a h.2

/-- What holds of the script `d` that the flow `g` was saved as when it is opened again. -/
structure Reopens (g : Graph) (d : Document) : Prop where
  /-- It is read as itself unless a node was written with the type of another action. -/
  reread : Document.ofJson d.toJson = .accepted d ↔ ∀ n, g.Met n → n.TagFits
  /-- It is drawn if the notes in it can be shown. -/
  drawn : d.Every Action.DigestFits → ∀ stem, ∃ g', d.draw stem = .ok g'
  /-- Its flow has no errors unless a node without a type lacks what the written type requires. -/
  valid : ∀ stem g', d.draw stem = .ok g' → (g'.validate = [] ↔ ∀ n, g.Met n → n.Filled)

theorem keysApart_of_capability {entry : Node} {c : Capability}
    (h : g.capability entry = .ok c) : c.KeysApart := by
  obtain ⟨as, -, h⟩ := bind_eq_ok.mp h
  exact Capability.keysApart_of_ofFieldsWith (Checked.orFault_eq_ok.mp h)

/-- A flow without errors is saved as a script that opens again, with the exceptions named. -/
theorem reopens_of_saveWith {extra : Fields} (hextra : ∀ f ∈ extra, f.1 ≠ "capabilities")
    (h : g.saveWith extra = .ok d) : g.Reopens d := by
  obtain ⟨hvalid, hcs, rfl⟩ := saveWith_eq_ok.mp h
  obtain ⟨hentries, hfields⟩ := of_validate_eq_nil hvalid
  have hcapabilities : d.capabilities ≠ [] := by
    intro hnil
    rw [hnil, List.forall₂_nil_right_iff] at hcs
    exact hentries hcs
  have hkeys : d.KeysApart := by
    refine ⟨hextra, ?_, ?_⟩
    · intro c hc
      obtain ⟨entry, -, hc⟩ := exists_of_forall₂_right hcs c hc
      exact keysApart_of_capability hc
    · refine (every_iff_met (Q := fun _ => True) hcs ?_).mpr fun _ _ => trivial
      exact fun _ _ _ ha => iff_of_true ha.keysApart trivial
  have hcomplete : d.Every Action.Complete ↔ ∀ n, g.Met n → n.Filled :=
    every_iff_met hcs fun n hn _ ha => ha.complete_iff (hfields n hn ha.not_isEntry)
  refine ⟨?_, ?_, ?_⟩
  · rw [hkeys.ofJson_toJson_iff]
    exact every_iff_met hcs fun _ _ _ ha => ha.tagFits_iff
  · intro hnotes stem
    exact exists_draw_of_digestFits stem hnotes.of_mem_stations
  · intro stem g' hg'
    rw [validate_draw_eq_nil hg', hcomplete]
    exact and_iff_right hcapabilities

theorem ne_capabilities_of_documentExtra {base : Json} {extra : Fields}
    (h : documentExtra base = .ok extra) : ∀ f ∈ extra, f.1 ≠ "capabilities" := by
  unfold documentExtra at h
  split at h
  · cases h
    intro f hf
    simpa using Fields.not_mem_of_mem_without hf
  · split at h
    · cases h
    · cases h
      exact fun f hf => absurd hf List.not_mem_nil

end Graph

/-- What is saved opens again, whatever the flow and the document that it is saved over. This
covers the flows that a session comes to. -/
theorem reopens_of_save :
    (∀ (g : Graph) (base : Json) (d : Document), g.save base = .ok d → g.Reopens d) ∧
      ∀ (v : Json) (d : Document) (settings : Settings) (s : Session) (rs : List (Nat × Request))
        (t : Session), Document.ofJson v = .accepted d → Session.start d settings = .ok s →
          (s.run rs).save = .ok t → (s.run rs).graph.Reopens t.document := by
  constructor
  · intro g base d h
    obtain ⟨extra, hextra, h⟩ := Graph.save_eq_ok.mp h
    exact Graph.reopens_of_saveWith (Graph.ne_capabilities_of_documentExtra hextra) h
  · intro v d settings s rs t hv hs ht
    obtain ⟨saved, hsaved, ht⟩ := bind_eq_ok.mp ht
    cases ht
    refine Graph.reopens_of_saveWith ?_ hsaved
    rw [Session.extra_run]
    obtain ⟨g, -, hs⟩ := bind_eq_ok.mp hs
    cases hs
    exact (Document.keysApart_of_ofJson hv).extra

/-- Requests that add a pause to an empty flow. -/
def addPause : List (Nat × Request) :=
  [(0, .edit (.addNode (.obj [("id", .str "act"), ("actionType", .str "wait"),
      ("config", .obj [("ms", .int 1)])]))),
    (0, .edit (.connect "node_1" "act" (.str "none")))]

theorem reopens_of_save_sample :
    (islands.save (.obj []) = .ok (Document.pauses [1]) ∧ islands.Reopens (Document.pauses [1])) ∧
      ∃ s t, Session.start (Document.pauses []) {} = .ok s ∧ (s.run addPause).save = .ok t ∧
        (s.run addPause).graph.Reopens t.document := by
  refine ⟨⟨save_islands, reopens_of_save.1 _ _ _ save_islands⟩, ?_⟩
  obtain ⟨s, hs, hsaved⟩ : ∃ s, Session.start (Document.pauses []) {} = .ok s ∧
      (s.run addPause).graph.saveWith (s.run addPause).document.extra =
        .ok (Document.pauses [1]) := by
    refine ⟨_, rfl, Graph.saveWith_eq_ok.mpr ⟨rfl, .cons ?_ .nil, rfl⟩⟩
    rw [Graph.capability, walkFrom_alone rfl (by decide) (by decide) rfl rfl rfl]
    rfl
  have ht : (s.run addPause).save = .ok
      { s.run addPause with
        document := Document.pauses [1], savedDigest := (s.run addPause).graph.digest } := by
    rw [Session.save, hsaved]
    rfl
  exact ⟨s, _, hs, ht, reopens_of_save.2 (Document.pauses []).toJson _ _ _ _ _ rfl hs ht⟩

/-! Flows of an entry and one action node, whose type and configuration disagree. -/

/-- A flow of an entry and an action node with this type and this configuration. -/
def Graph.lone (type : String) (config : Fields) : Graph :=
  ⟨[⟨"main", .entry, "capability", [("name", .str "main")], .zero, [], [], []⟩,
      ⟨"act", .action, type, config, .zero, [], [], []⟩],
    [.structural "main" "act" .none]⟩

/-- A script of one capability with one leaf. -/
def Document.lone (type : String) (fields : Fields) : Document :=
  ⟨[⟨some "main", none, none, none, [], [.leaf type fields]⟩], []⟩

theorem save_lone {type t : String} {config fields : Fields}
    (hv : (Graph.lone type config).validate = [])
    (hl : (⟨"act", .action, type, config, .zero, [], [], []⟩ : Node).leaf = .ok (.leaf t fields)) :
    (Graph.lone type config).save (.obj []) = .ok (Document.lone t fields) :=
  Graph.save_eq_ok.mpr ⟨[], rfl,
    saveWith_alone hv rfl (walkFrom_alone rfl (by decide) (by decide) rfl rfl rfl) hl rfl⟩

/-- A note whose digest is a number. -/
def numberedNote : Fields := [(noteKey, .obj [("content", .str "pause"), ("configHash", .int 5)])]

/-- Three flows without errors: what is saved of the first is read as another script, what is saved
of the second has a flow with errors, and what is saved of the third is not drawn. -/
theorem not_reopened_lone :
    ((Graph.lone "if" []).validate = [] ∧
      (Graph.lone "if" []).save (.obj []) = .ok (Document.lone "if" []) ∧
      Document.ofJson (Document.lone "if" []).toJson ≠ .accepted (Document.lone "if" [])) ∧
    ((Graph.lone "" [("type", .str "wait")]).validate = [] ∧
      (Graph.lone "" [("type", .str "wait")]).save (.obj []) = .ok (Document.lone "wait" []) ∧
      ∃ g, (Document.lone "wait" []).draw defaultStem = .ok g ∧ g.validate ≠ []) ∧
    (Graph.lone "notify" numberedNote).validate = [] ∧
      (Graph.lone "notify" numberedNote).save (.obj []) =
        .ok (Document.lone "notify" numberedNote) ∧
      ∀ g, (Document.lone "notify" numberedNote).draw defaultStem ≠ .ok g := by
  refine ⟨⟨rfl, save_lone rfl rfl, ?_⟩, ⟨rfl, save_lone rfl rfl, _, rfl, ?_⟩,
    rfl, save_lone rfl rfl, ?_⟩
  · intro h
    cases h
  · intro h
    cases h
  · intro g h
    cases h

end ScriptFlow
