import ScriptFlow.Proofs.Carrying
import ScriptFlow.Proofs.Failing
import ScriptFlow.Proofs.Pairing
import ScriptFlow.Proofs.Reopening
import Mathlib.Data.List.Induction

/-! Saving a flow after the configuration of a node was overwritten. The actions of the node come back
with what was written, in the same places, and all others as before. The note is an exception: what
the canvas shows of it is refreshed and goes over the stored one, so a note that is shown with a
digest outlives what is written in its place. -/

namespace ScriptFlow

theorem Fields.get?_update (fs changes : Fields) (key : String) :
    (update fs changes).get? key = ((ofWritten changes).get? key).or (fs.get? key) := by
  induction changes using List.reverseRecOn with
  | nil => rfl
  | append_singleton changes c ih =>
    simp only [ofWritten, update, List.foldl_append, List.foldl_cons, List.foldl_nil] at ih ⊢
    by_cases hc : key = c.1
    · rw [hc, get?_set_self, get?_set_self, Option.some_or]
    · rw [get?_set_of_ne _ _ hc, get?_set_of_ne _ _ hc, ih]

theorem Fields.get?_ofWritten_eq_none {changes : Fields} {key : String}
    (h : ∀ f ∈ changes, f.1 ≠ key) : (ofWritten changes).get? key = none := by
  unfold ofWritten update
  induction changes using List.reverseRecOn with
  | nil => rfl
  | append_singleton changes c ih =>
    rw [List.forall_mem_append, List.forall_mem_singleton] at h
    rw [List.foldl_append, List.foldl_cons, List.foldl_nil, get?_set_of_ne _ _ h.2.symm, ih h.1]

namespace Note

variable {config : Fields} {v : Json}

/-- What can be stored of a shown note once it was refreshed: the text of its content and its
digest. A refresh knows one spelling of the digest. -/
def refreshed? : Json → Option Fields
  | .obj note =>
    match Fields.value note "configHash" with
    | .str digest =>
      if (Fields.value note "content").truthy ∧ digest ≠ "" then
        some [("content", .str (Fields.value note "content").text), ("configHash", .str digest)]
      else none
    | _ => none
  | _ => none

/-- The note that is saved with a configuration, over which one may be written. -/
def saved? (config : Fields) : Option Fields → Option Json
  | some payload => if holdsNote config payload then config.get? noteKey else some (.obj payload)
  | none => config.get? noteKey

/-- A note that does not hold is not refreshed, and nothing of it can be stored. -/
theorem of_refresh?_eq_none (h : refresh? v config = none) :
    storable? v = none ∧ refreshed? v = none := by
  cases v with
  | obj note =>
    have hcontent : (Fields.value note "content").truthy = false := by
      by_contra ht
      simp [refresh?, Json.fields?, ofPayload?, ht] at h
    refine ⟨by simp [storable?, hcontent], ?_⟩
    simp only [refreshed?, hcontent]
    split <;> simp
  | _ => exact ⟨rfl, rfl⟩

theorem storable?_of_refresh? {shown : Fields} (h : refresh? v config = some (.accepted shown)) :
    storable? (.obj shown) = refreshed? v := by
  obtain ⟨note, n, rfl, hn, rfl⟩ := exists_of_refresh? h
  obtain ⟨ht, hcontent, hdigest⟩ := of_ofPayload? hn
  by_cases hd : ∃ digest, n.digest = some digest ∧ digest ≠ ""
  · obtain ⟨digest, hd, hne⟩ := hd
    rw [storable?_shown_of_digest hd (hcontent ▸ Json.text_ne_empty ht) hne, hcontent]
    simp only [refreshed?, (hdigest digest).mp hd, ht, hne, ne_eq, not_false_eq_true, and_self,
      if_true]
  · have hnone : ∀ digest, n.digest = some digest → digest = "" := by
      intro digest hd'
      by_contra hne
      exact hd ⟨digest, hd', hne⟩
    rw [storable?_shown_of_no_digest hnone]
    simp only [refreshed?]
    split
    · next digest hv =>
      have hempty : digest = "" := hnone digest ((hdigest digest).mpr hv)
      simp [hempty]
    · rfl

/-- Of a note that is shown by a refresh the same can be stored before and after. -/
theorem Shows.storable?_eq (h : Shows config v) : storable? v = refreshed? v := by
  obtain ⟨n, hc, rfl⟩ := shows_iff.mp h
  exact storable?_of_refresh? (refresh?_shown hc config config)

/-- A note is saved alike beside configurations that hold the same note. -/
theorem saved?_congr {config' : Fields} (h : config.get? noteKey = config'.get? noteKey)
    (payload? : Option Fields) : saved? config payload? = saved? config' payload? := by
  have hvalue : config.value noteKey = config'.value noteKey := congrArg (·.getD .null) h
  cases payload? with
  | none => exact h
  | some payload =>
    have hholds : holdsNote config payload = holdsNote config' payload := by
      rw [holdsNote, holdsNote, hvalue]
    simp only [saved?, hholds, h]

theorem exists_of_refreshed? {payload : Fields} (h : refreshed? v = some payload) :
    ∃ content digest, payload = [("content", .str content), ("configHash", .str digest)] := by
  cases v with
  | obj note =>
    simp only [refreshed?] at h
    split at h
    · next digest _ =>
      obtain ⟨-, h⟩ := Option.ite_none_right_eq_some.mp h
      cases h
      exact ⟨_, digest, rfl⟩
    · cases h
  | _ => cases h

/-- The stored note is the one that is saved if no other goes over it. -/
theorem saved?_eq_some_iff {w : Json} (h : config.get? noteKey = some w) :
    saved? config (refreshed? v) = some w ↔
      ∀ payload, refreshed? v = some payload → holdsNote config payload := by
  cases hr : refreshed? v with
  | none => simp [saved?, h]
  | some payload =>
    simp only [saved?, Option.some.injEq, forall_eq']
    constructor
    · intro hsaved
      split at hsaved
      · assumption
      · next hheld =>
        -- a note that goes over itself is held
        obtain ⟨content, digest, rfl⟩ := exists_of_refreshed? hr
        cases hsaved
        simp only [holdsNote, Fields.value, h, Option.getD_some]
        exact Bool.and_eq_true_iff.mpr ⟨Json.same_str content, Json.same_str digest⟩
    · intro hheld
      rw [if_pos hheld, h]

end Note

namespace Node

variable {n m : Node}

theorem get?_savedConfig_noteKey (n : Node) : n.savedConfig.get? noteKey =
    Note.saved? n.config (Note.storable? (n.presentation.value "note")) := by
  have hne : noteKey ≠ "type" := by decide
  have hnote : (n.config.set "type" n.tag).get? noteKey = n.config.get? noteKey :=
    Fields.get?_set_of_ne _ _ hne
  unfold savedConfig
  dsimp only
  rw [← tag, Note.saved?_congr hnote.symm]
  cases Note.storable? (n.presentation.value "note") with
  | none => rfl
  | some payload =>
    dsimp only [Note.saved?]
    split
    · rfl
    · exact Fields.get?_set_self _ _ _

/-- Of a note in the form that a refresh gives it the same is stored before and after. -/
theorem NoteShown.storable?_eq (h : n.NoteShown) :
    Note.storable? (n.presentation.value "note") =
      Note.refreshed? (n.presentation.value "note") := by
  cases hv : n.presentation.get? "note" with
  | none =>
    rw [Fields.value, hv]
    rfl
  | some v =>
    obtain ⟨config, hshows⟩ := h v hv
    rw [Fields.value, hv]
    exact hshows.storable?_eq

/-- A refresh leaves all that is read back of a node but its note. -/
theorem of_refresh (h : n.refresh = .ok m) (hn : n.isEntry = false) :
    m.kind = n.kind ∧ m.actionType = n.actionType ∧ m.config = n.config ∧
      Note.storable? (m.presentation.value "note") =
        Note.refreshed? (n.presentation.value "note") := by
  have hlabel (v : Json) :
      (n.presentation.set "label" v).value "note" = n.presentation.value "note" :=
    congrArg (·.getD .null) (get?_note_set_label _ _)
  unfold refresh at h
  rw [if_neg (by simp [hn])] at h
  simp only [hlabel] at h
  split at h
  · next hnone =>
    cases h
    obtain ⟨hstorable, hrefreshed⟩ := Note.of_refresh?_eq_none hnone
    exact ⟨rfl, rfl, rfl, by rw [hlabel, hstorable, hrefreshed]⟩
  · next note hsome =>
    obtain ⟨shown, hshown, h⟩ := bind_eq_ok.mp h
    cases h
    obtain rfl := Checked.orFault_eq_ok.mp hshown
    refine ⟨rfl, rfl, rfl, ?_⟩
    rw [Fields.value, Fields.get?_set_self]
    exact Note.storable?_of_refresh? hsome

end Node

/-! What is read back of one node. -/

/-- A configuration whose type and some other keys are taken out, of which `heads` are put in front,
lacks the others only. -/
theorem Fields.get?_taken {fs head : Fields} (heads bodies : List String)
    (hhead : ∀ key, head.get? key = if key ∈ heads then fs.get? key else none)
    (hdisjoint : ∀ key ∈ heads, key ∉ bodies) {key : String} (hkey : key ≠ "type") :
    (head.get? key).or ((fs.without ("type" :: (heads ++ bodies))).get? key) =
      if key ∈ bodies then none else fs.get? key := by
  rw [hhead, get?_without]
  by_cases hh : key ∈ heads
  · simp [hh, hdisjoint key hh]
  · simp [hh, hkey]

/-- The keys under which an action that is made of a node has actions of its own. -/
def NodeKind.bodyKeys : NodeKind → List String
  | condition => ["then", "else"]
  | loop => ["do"]
  | _ => []

theorem NodeKind.bodyKeys_subset (k : NodeKind) : k.bodyKeys ⊆ ScriptFlow.bodyKeys := by
  cases k <;> decide

namespace Action

/-- The data of an action, without the actions in it. -/
def data (a : Action) : Fields := ("type", .str a.type) :: (a.headFields ++ a.others)

theorem get?_data_type (a : Action) : a.data.get? "type" = some (.str a.type) := rfl

/-- The action has the same data. -/
structure Keeps (a a' : Action) : Prop where
  type : a'.type = a.type
  head : a'.headFields = a.headFields
  others : a'.others = a.others

/-- The action has the data of `a` with `changes` written over it, where both are made of the node
`n`. -/
structure Overwritten (n : Node) (changes : Fields) (a a' : Action) : Prop where
  type : a'.type = a.type
  keysApart : a'.KeysApart
  fields : ∀ key ≠ noteKey,
    a'.data.get? key = ((Fields.ofWritten changes).get? key).or (a.data.get? key)
  /-- The note that was shown goes over the stored or the written one. -/
  note : a'.data.get? noteKey = Note.saved? (n.config.update changes)
    (Note.refreshed? (n.presentation.value "note"))
  /-- A note in the form that a refresh gives it stays attached. -/
  kept : n.NoteShown → (Fields.ofWritten changes).get? noteKey = none →
    a'.data.get? noteKey = a.data.get? noteKey
  /-- A note is saved as it is written unless another one with a digest is shown. -/
  written : ∀ v, (Fields.ofWritten changes).get? noteKey = some v →
    (a'.data.get? noteKey = some v ↔ ∀ payload,
      Note.refreshed? (n.presentation.value "note") = some payload →
        holdsNote (n.config.update changes) payload)

end Action

namespace Node.Reads

variable {n m : Node} {a a' : Action}

/-- Under each key but those of its bodies an action has what is saved of its node. -/
theorem get?_data (h : n.Reads a) {key : String} (hkey : key ≠ "type") :
    a.data.get? key = if key ∈ n.kind.bodyKeys then none else n.savedConfig.get? key := by
  rw [Action.data, Fields.get?_cons, if_neg hkey, Fields.get?_append]
  cases h with
  | leaf hkind h =>
    obtain ⟨t, -, rfl⟩ := leaf_eq_ok.mp h
    rw [hkind]
    exact Fields.get?_taken [] [] (by simp [Action.headFields, Fields.get?_nil]) (by simp) hkey
  | branch hkind =>
    rw [hkind]
    refine Fields.get?_taken ["condition"] ["then", "else"] ?_ (by decide) hkey
    simp +contextual [Node.branch, Action.headFields, Fields.get?_optionalField]
  | loop hkind =>
    have hhead {key₁ key₂ : String} (hne : key₁ ≠ key₂) (fs : Fields) (key : String) :
        (optionalField key₁ (fs.get? key₁) ++ optionalField key₂ (fs.get? key₂)).get? key =
          if key ∈ [key₁, key₂] then fs.get? key else none := by
      rw [Fields.get?_append, Fields.get?_optionalField, Fields.get?_optionalField]
      by_cases h₁ : key = key₁
      · subst h₁
        simp [hne]
      by_cases h₂ : key = key₂
      · subst h₂
        simp [h₁]
      · simp [h₁, h₂]
    rw [hkind]
    unfold Node.loop
    dsimp only
    split
    · exact Fields.get?_taken ["condition", "maxIterations"] ["do"] (hhead (by decide) _)
        (by decide) hkey
    · exact Fields.get?_taken ["source", "itemAs"] ["do"] (hhead (by decide) _) (by decide) hkey

end Node.Reads

namespace Node

variable {n m : Node} {a a' : Action} {changes : Fields}

/-- Overwriting the configuration of a node overwrites what is read back of it. -/
theorem overwritten_of_refresh (hkeys : ∀ f ∈ changes, f.1 ∉ "type" :: bodyKeys)
    (hn : n.isEntry = false)
    (hm : ({ n with config := n.config.update changes } : Node).refresh = .ok m)
    (h : n.Reads a) (h' : m.Reads a') (htype : a'.type = a.type) :
    a.Overwritten n changes a' := by
  obtain ⟨hkind, -, hconfig, hnote⟩ := of_refresh hm hn
  dsimp only at hkind hconfig hnote
  have hunwritten : ∀ key ∈ "type" :: bodyKeys, (Fields.ofWritten changes).get? key = none :=
    fun key hkey => Fields.get?_ofWritten_eq_none fun f hf he => hkeys f hf (he ▸ hkey)
  -- no action has its note under a key of its own
  have hnoteKey : noteKey ∉ bodyKeys := by decide
  have hbody : noteKey ∉ n.kind.bodyKeys := fun hmem => hnoteKey (n.kind.bodyKeys_subset hmem)
  have hstored : a.data.get? noteKey =
      Note.saved? n.config (Note.storable? (n.presentation.value "note")) := by
    rw [h.get?_data (by decide), if_neg hbody, get?_savedConfig_noteKey]
  have hsaved : a'.data.get? noteKey = Note.saved? (n.config.update changes)
      (Note.refreshed? (n.presentation.value "note")) := by
    rw [h'.get?_data (by decide), hkind, if_neg hbody, get?_savedConfig_noteKey, hconfig, hnote]
  refine ⟨htype, h'.keysApart, ?_, hsaved, ?_, ?_⟩
  · intro key hne
    by_cases ht : key = "type"
    · rw [ht, hunwritten _ List.mem_cons_self, Option.none_or, a.get?_data_type,
        a'.get?_data_type, htype]
    rw [h.get?_data ht, h'.get?_data ht, hkind]
    split
    · next hmem =>
      rw [hunwritten _ (List.mem_cons_of_mem _ (n.kind.bodyKeys_subset hmem))]
      rfl
    · rw [get?_savedConfig ht hne, get?_savedConfig ht hne, hconfig, Fields.get?_update]
  · intro hshown hnone
    have hsame : (n.config.update changes).get? noteKey = n.config.get? noteKey := by
      rw [Fields.get?_update, hnone, Option.none_or]
    rw [hsaved, hstored, hshown.storable?_eq, Note.saved?_congr hsame]
  · intro v hv
    rw [hsaved]
    exact Note.saved?_eq_some_iff (by rw [Fields.get?_update, hv, Option.some_or])

end Node

/-- A list keeps what fits if nothing that fits is changed and nothing else comes to fit. -/
theorem filter_eq_of_forall₂ {α : Type} {p : α → Bool} {xs ys : List α}
    (h : List.Forall₂ (fun x y => p y = p x ∧ (p x = true → y = x)) xs ys) :
    ys.filter p = xs.filter p := by
  induction h with
  | nil => rfl
  | @cons x y xs ys hxy _ ih =>
    obtain ⟨hp, heq⟩ := hxy
    rw [List.filter_cons, List.filter_cons, hp, ih]
    split
    · next hx => rw [heq hx]
    · rfl

/-- The actions of the nodes with an id are overwritten, and all others are kept. -/
def Action.Updated (id : String) (changes : Fields) (n : Node) (a a' : Action) : Prop :=
  if n.id = id then a.Overwritten n changes a' else a.Keeps a'

namespace Node

variable {n m : Node} {id : String} {changes : Fields}

/-- What is read back of a node that is not updated stays as it is. -/
theorem readWith_self (hid : n.id ≠ id) : n.ReadWith (Action.Updated id changes) n := by
  refine ⟨rfl, rfl, ?_, ?_, ?_⟩
  · intro _ a ha
    exact ⟨a, ha, (if_neg hid).mpr ⟨rfl, rfl, rfl⟩⟩
  · intro _ ts es ts' es'
    exact (if_neg hid).mpr ⟨rfl, rfl, rfl⟩
  · intro _ bs bs'
    refine (if_neg hid).mpr ?_
    unfold Node.loop
    dsimp only
    split <;> exact ⟨rfl, rfl, rfl⟩

theorem readWith_of_amended (hkeys : ∀ f ∈ changes, f.1 ∉ "type" :: bodyKeys)
    (hn : n.id = id → n.isEntry = false) (hm : n.amended id changes = .ok m) :
    n.ReadWith (Action.Updated id changes) m := by
  unfold amended at hm
  split at hm
  · next hid =>
    obtain ⟨hkind, htype, hconfig, -⟩ := of_refresh hm (hn hid)
    have htag : m.tag = n.tag := by
      have hwritten : (Fields.ofWritten changes).get? "type" = none :=
        Fields.get?_ofWritten_eq_none fun f hf he => hkeys f hf (he ▸ List.mem_cons_self)
      have hget : m.config.get? "type" = n.config.get? "type" := by
        rw [hconfig, Fields.get?_update, hwritten, Option.none_or]
      rw [tag, tag, htype, hget]
    have hover {a a' : Action} (h : n.Reads a) (h' : m.Reads a') (ht : a'.type = a.type) :
        Action.Updated id changes n a a' :=
      (if_pos hid).mpr (overwritten_of_refresh hkeys (hn hid) hm h h' ht)
    refine ⟨(id_of_refresh hm).symm, hkind.symm, ?_, ?_, ?_⟩
    · intro hleaf a ha
      obtain ⟨t, ht, rfl⟩ := leaf_eq_ok.mp ha
      have ha' := leaf_eq_ok.mpr ⟨t, htag.trans ht, rfl⟩
      exact ⟨_, ha', hover (.leaf hleaf ha) (.leaf (hkind.trans hleaf) ha') rfl⟩
    · intro hbranch ts es ts' es'
      exact hover (.branch hbranch) (.branch (hkind.trans hbranch)) rfl
    · intro hloop bs bs'
      refine hover (.loop hloop) (.loop (hkind.trans hloop)) ?_
      unfold Node.loop
      dsimp only at htype ⊢
      rw [htype]
      split <;> rfl
  · next hid =>
    cases hm
    exact readWith_self hid

end Node

namespace Graph

variable {g g' : Graph} {n : Node} {changes : Fields} {base : Json} {d : Document}

/-- A flow is read back after the configuration of a node was overwritten if it was before, and with
the same actions in the same places: those of the node with the changes written over their data, up
to the note, and all others as they were. -/
theorem rebuild_updated (hids : g.ids.Nodup) (hn : n ∈ g.nodes) (hentry : n.isEntry = false)
    (hkeys : ∀ f ∈ changes, f.1 ∉ "type" :: bodyKeys)
    (hu : g.updateConfig n.id changes = .ok g') (h : g.rebuild base = .ok d) :
    ∃ d', g'.rebuild base = .ok d' ∧ g.Pairs (Action.Updated n.id changes) d d' := by
  obtain ⟨-, -, hu⟩ := bind_eq_ok.mp hu
  obtain ⟨nodes, hnodes, hu⟩ := bind_eq_ok.mp hu
  cases hu
  have hamended : List.Forall₂ (fun m m' => m.amended n.id changes = .ok m') g.nodes nodes :=
    mapM_eq_ok.mp hnodes
  have hown : ∀ m ∈ g.nodes, m.id = n.id → m.isEntry = false := by
    intro m hm hid
    obtain rfl := List.inj_on_of_nodup_map hids hm hn hid
    exact hentry
  have hmem : List.Forall₂ (fun m m' => m ∈ g.nodes ∧ m.amended n.id changes = .ok m') g.nodes
      nodes := (List.forall₂_and_left _ _).mpr ⟨fun _ hm => hm, hamended⟩
  refine exists_rebuild (hmem.imp fun m m' hm => ?_) rfl (filter_eq_of_forall₂ ?_) h
  · exact Node.readWith_of_amended hkeys (hown m hm.1) hm.2
  · refine hmem.imp fun m m' hm => ?_
    obtain ⟨hm, hamended⟩ := hm
    unfold Node.amended at hamended
    split at hamended
    · next hid =>
      have hfalse := hown m hm hid
      have hsame := Node.isEntry_of_refresh hamended
      exact ⟨hsame, fun htrue => absurd htrue (by simp [hfalse])⟩
    · cases hamended
      exact ⟨rfl, fun _ => rfl⟩

theorem unknown?_of_mem (hn : n ∈ g.nodes) : g.unknown? [n.id] = none := by
  have hnode : g.hasNode n.id := hasNode_iff.mpr (List.mem_map_of_mem hn)
  simp [unknown?, hnode]

/-- The leaf keeps its note and has the new fields, and the other actions stay as they are. -/
theorem rebuild_updated_burdened :
    let note : Json := .obj [("content", .str "Says hi."), ("configHash", .str "0123456789ab")]
    let d := Document.burdened note [("hint", .null)]
    let changes : Fields := [("text", .str "bye"), ("lang", .str "en")]
    ∃ g g' d', d.draw defaultStem = .ok g ∧ g.updateConfig "node_2" changes = .ok g' ∧
      g'.rebuild d.toJson = .ok d' ∧ g.Pairs (Action.Updated "node_2" changes) d d' := by
  intro note d changes
  have hv : Document.ofJson d.toJson = .accepted d := rfl
  have hlast : d.IfsLast := by
    simp [d, Document.burdened, Document.IfsLast, Action.ListIfsLast, Action.IfsLast, Action.isIf]
  obtain ⟨g, hg⟩ : ∃ g, d.draw defaultStem = .ok g := ⟨_, rfl⟩
  have hread := (Document.rebuild_of_ifsLast hv hg hlast).2
  have hids := nodup_ids_of_draw hg
  obtain ⟨n, hn, hid, hentry⟩ : ∃ n ∈ g.nodes, n.id = "node_2" ∧ n.isEntry = false := by
    cases hg
    exact ⟨_, List.mem_reverse.mpr (List.mem_cons_of_mem _ (List.mem_cons_of_mem _
      List.mem_cons_self)), rfl, rfl⟩
  obtain ⟨g', hg'⟩ := exists_updateConfig (fun m hm he => (current_of_draw hg m hm he).noteShown)
    n.id changes
  rw [unknown?_of_mem hn] at hg'
  obtain ⟨d', hd', hpairs⟩ := rebuild_updated hids hn hentry (by decide) hg' hread
  rw [hid] at hg' hpairs
  exact ⟨g, g', d', hg, hg', hd', hpairs⟩

def soleEntry : Node :=
  ⟨"node_1", .entry, "capability", [("name", .str "main")], .zero, [], [], []⟩

/-- A flow of one node behind its entry. -/
def single (n : Node) : Graph := ⟨[soleEntry, n], [.structural "node_1" "node_2" .none]⟩

theorem rebuild_single {n : Node} {a : Action} (hid : n.id = "node_2") (hkind : n.kind = .action)
    (ha : n.leaf = .ok a) : (single n).rebuild (.obj []) =
      .ok ⟨[⟨some "main", none, none, none, [], [a]⟩], []⟩ := by
  have hfind : (single n).findLast? "node_2" = some n := by simp [findLast?, single, hid]
  have hentry : (single n).entries = [soleEntry] := by
    simp [entries, single, soleEntry, Node.isEntry, hkind]
  have hwalk : (single n).walkFrom soleEntry = [.plain n] :=
    walkFrom_alone rfl (by decide) (by decide) hfind hkind rfl
  have hcs : (single n).capabilities = .ok [⟨some "main", none, none, none, [], [a]⟩] :=
    capabilities_eq_ok.mpr (hentry ▸ .cons (capability_alone hwalk ha rfl) .nil)
  exact bind_eq_ok.mpr ⟨_, hcs, rfl⟩

theorem updateConfig_single {n m : Node} {changes : Fields} (hid : n.id = "node_2")
    (hm : ({ n with config := n.config.update changes } : Node).refresh = .ok m) :
    (single n).updateConfig "node_2" changes = .ok (single m) := by
  have hnode : (single n).hasNode "node_2" := by simp [hasNode, single, hid]
  refine bind_eq_ok.mpr ⟨(), if_pos hnode, bind_eq_ok.mpr ⟨(single m).nodes, ?_, rfl⟩⟩
  refine mapM_eq_ok.mpr (.cons rfl (.cons ?_ .nil))
  rw [if_pos hid, hm]

/-- A note that is written in the place of a shown one is not saved, and a note that is shown with
the other spelling of its digest is lost with the next change. -/
theorem note_not_saved :
    let noted (key content : String) : Json :=
      .obj [("content", .str content), (key, .str "0123456789ab")]
    let flow (shown : Json) (fields : Fields) : Graph :=
      single ⟨"node_2", .action, "wait", ("type", .str "wait") :: fields, .zero, [("note", shown)],
        [], []⟩
    let script (fields : Fields) : Document :=
      ⟨[⟨some "main", none, none, none, [], [.leaf "wait" fields]⟩], []⟩
    let old := noted "configHash" "old"
    let new := noted "configHash" "new"
    let other := noted "config_hash" "old"
    (∀ shown fields, (flow shown fields).ids.Nodup) ∧ old ≠ new ∧
    ((flow old [(noteKey, old)]).rebuild (.obj []) = .ok (script [(noteKey, old)]) ∧
      ∃ g', (flow old [(noteKey, old)]).updateConfig "node_2" [(noteKey, new)] = .ok g' ∧
        g'.rebuild (.obj []) = .ok (script [(noteKey, old)])) ∧
    (flow other []).rebuild (.obj []) = .ok (script [(noteKey, old)]) ∧
      ∃ g', (flow other []).updateConfig "node_2" [("ms", .int 2)] = .ok g' ∧
        g'.rebuild (.obj []) = .ok (script [("ms", .int 2)]) := by
  intro noted flow script old new other
  refine ⟨fun shown fields => ?_, by decide, ⟨rebuild_single rfl rfl rfl, ?_⟩,
    rebuild_single rfl rfl rfl, ?_⟩
  · have hne : soleEntry.id ≠ "node_2" := by decide
    simp [flow, single, ids, hne]
  · exact ⟨_, updateConfig_single rfl rfl, rebuild_single rfl rfl rfl⟩
  · exact ⟨_, updateConfig_single rfl rfl, rebuild_single rfl rfl rfl⟩

end Graph

end ScriptFlow
