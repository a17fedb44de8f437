import ScriptFlow.Proofs.Amending

/-! What a flow shows of its nodes is computed of what they are now. Drawing computes it, a refresh
computes it again, and every edit refreshes the nodes whose configuration it writes. The data edges
are computed afresh with every snapshot. So nothing that is shown in a session goes out of date. -/

namespace ScriptFlow

namespace Note

/-- What is shown of a note beside a configuration: its content, its digest, and that it is stale
unless the digest is that of the configuration. -/
def Shows (config : Fields) (v : Json) : Prop :=
  ∃ (content : String) (digest? : Option String) (stale : Bool), content ≠ "" ∧
    v = .obj [("content", .str content), ("configHash", (digest?.map Json.str).getD .null),
      ("stale", .bool stale)] ∧
    (stale = true ↔ digest? = none ∨ digest? = some "" ∨ digest? ≠ some (configDigest config))

theorem isStale_iff {n : Note} {config : Fields} : n.isStale config = true ↔
    n.digest = none ∨ n.digest = some "" ∨ n.digest ≠ some (configDigest config) := by
  unfold isStale
  cases n.digest <;> simp

theorem shows_iff {config : Fields} {v : Json} :
    Shows config v ↔ ∃ n : Note, n.content ≠ "" ∧ v = .obj (n.shown config) := by
  constructor
  · intro h
    obtain ⟨content, digest?, stale, hc, rfl, hstale⟩ := h
    have heq : stale = (Note.mk content digest?).isStale config :=
      Bool.eq_iff_iff.mpr (hstale.trans (isStale_iff (n := ⟨content, digest?⟩)).symm)
    exact ⟨⟨content, digest?⟩, hc, by rw [heq]; rfl⟩
  · intro h
    obtain ⟨n, hc, rfl⟩ := h
    exact ⟨n.content, n.digest, n.isStale config, hc, rfl, isStale_iff⟩

end Note

namespace Node

/-- What is shown of a node that is no entry is computed of its type and its configuration. -/
structure Current (n : Node) : Prop where
  inputs : n.inputs = Variables.inputs n.config
  outputs : n.outputs = Variables.outputs n.actionType n.config
  label : n.presentation.get? "label" = some (.str (ScriptFlow.label n.actionType n.config))
  note : ∀ v, n.presentation.get? "note" = some v → Note.Shows n.config v

/-- An entry shows its name, or the empty text for a name that does not hold. -/
def Titled (n : Node) : Prop :=
  n.presentation.get? "label" = some ((n.config.value "name").orElse (.str ""))

/-- A note on a node was shown of some configuration. -/
def NoteShown (n : Node) : Prop :=
  ∀ v, n.presentation.get? "note" = some v → ∃ config, Note.Shows config v

theorem Current.noteShown {n : Node} (h : n.Current) : n.NoteShown :=
  fun v hv => ⟨n.config, h.note v hv⟩

/-- It does not matter where the node is. -/
theorem Current.move {n : Node} (h : n.Current) (position : Point) :
    ({ n with position } : Node).Current :=
  ⟨h.inputs, h.outputs, h.label, h.note⟩

theorem Titled.move {n : Node} (h : n.Titled) (position : Point) :
    ({ n with position } : Node).Titled := h

/-- The label and the note have a place each. -/
theorem get?_note_set_label (fs : Fields) (v : Json) :
    (fs.set "label" v).get? "note" = fs.get? "note" :=
  Fields.get?_set_of_ne _ _ (by decide)

theorem get?_label_set_note (fs : Fields) (v : Json) :
    (fs.set "note" v).get? "label" = fs.get? "label" :=
  Fields.get?_set_of_ne _ _ (by decide)

theorem refresh_entry {n : Node} (hn : n.isEntry = true) :
    ∃ m, n.refresh = .ok m ∧ m.Titled :=
  ⟨_, if_pos hn, Fields.get?_set_self _ _ _⟩

/-- A node whose note was shown before can be refreshed, and then it shows what it is. -/
theorem refresh_current {n : Node} (hn : n.isEntry = false) (hnote : n.NoteShown) :
    ∃ m, n.refresh = .ok m ∧ m.Current := by
  cases hv : n.presentation.get? "note" with
  | none =>
    refine ⟨_, refresh_of_none hn rfl ?_, rfl, rfl, Fields.get?_set_self _ _ _, ?_⟩
    · rw [Fields.value, get?_note_set_label, hv]
      rfl
    · intro v h
      rw [get?_note_set_label, hv] at h
      cases h
  | some v =>
    obtain ⟨config, hshows⟩ := hnote v hv
    obtain ⟨note, hc, rfl⟩ := Note.shows_iff.mp hshows
    have hrefresh : Note.refresh? ((n.presentation.set "label"
        (.str (ScriptFlow.label n.actionType n.config))).value "note") n.config =
          some (.accepted (note.shown n.config)) := by
      rw [Fields.value, get?_note_set_label, hv]
      exact Note.refresh?_shown hc config n.config
    refine ⟨_, refresh_of_some hn rfl hrefresh, rfl, rfl, ?_, ?_⟩
    · rw [get?_label_set_note]
      exact Fields.get?_set_self _ _ _
    · intro v h
      rw [Fields.get?_set_self] at h
      cases h
      exact Note.shows_iff.mpr ⟨note, hc, rfl⟩

theorem exists_refresh {n : Node} (hnote : n.isEntry = false → n.NoteShown) :
    ∃ m, n.refresh = .ok m := by
  cases hn : n.isEntry with
  | true =>
    obtain ⟨m, hm, -⟩ := refresh_entry hn
    exact ⟨m, hm⟩
  | false =>
    obtain ⟨m, hm, -⟩ := refresh_current hn (hnote hn)
    exact ⟨m, hm⟩

theorem isEntry_of_refresh {n m : Node} (h : n.refresh = .ok m) : m.isEntry = n.isEntry := by
  unfold refresh at h
  split at h
  · cases h
    rfl
  · dsimp only at h
    split at h
    · cases h
      rfl
    · obtain ⟨note, -, h⟩ := bind_eq_ok.mp h
      cases h
      rfl

theorem titled_of_refresh {n m : Node} (h : n.refresh = .ok m) (hm : m.isEntry = true) :
    m.Titled := by
  obtain ⟨m', hm', ht⟩ := refresh_entry (isEntry_of_refresh h ▸ hm)
  cases hm'.symm.trans h
  exact ht

theorem current_of_refresh {n m : Node} (h : n.refresh = .ok m) (hnote : n.NoteShown)
    (hm : m.isEntry = false) : m.Current := by
  obtain ⟨m', hm', hc⟩ := refresh_current (isEntry_of_refresh h ▸ hm) hnote
  cases hm'.symm.trans h
  exact hc

/-- A new block comes without a note. -/
theorem exists_create (id type : String) (position : Point) (config : Fields) : ∃ n m : Node,
    n.id = id ∧ n.NoteShown ∧ n.refresh = .ok m ∧ create id type position config = .ok m := by
  have hnote : ∀ n : Node, n.presentation = [("category", .str (Catalog.category type).name),
      ("icon", .str (Catalog.icon type))] → n.NoteShown := by
    intro n hn v hv
    simp [hn, Fields.get?_cons, Fields.get?_nil] at hv
  obtain ⟨m, hm⟩ := exists_refresh (n := ⟨id, .ofType type, type,
    (Fields.update [("type", .str type)] (Catalog.defaults type)).update config, position, _, [],
    []⟩) fun _ => hnote _ rfl
  exact ⟨_, m, rfl, hnote _ rfl, hm, hm⟩

end Node

/-! Where the nodes of an edited flow are from. -/

/-- A node of a flow with an updated configuration was refreshed if it has the id, and else it is as
it was. -/
theorem Graph.of_mem_updateConfig {g g' : Graph} {id : String} {changes : Fields}
    (h : g.updateConfig id changes = .ok g') {m : Node} (hm : m ∈ g'.nodes) : ∃ n ∈ g.nodes,
      (({ n with config := n.config.update changes } : Node).refresh = .ok m ∧ n.id = id) ∨
        (m = n ∧ n.id ≠ id) := by
  obtain ⟨-, -, h⟩ := bind_eq_ok.mp h
  obtain ⟨nodes, hnodes, h⟩ := bind_eq_ok.mp h
  cases h
  obtain ⟨n, hn, hnm⟩ := exists_of_forall₂_right (mapM_eq_ok.mp hnodes) m hm
  split at hnm
  · next hid => exact ⟨n, hn, Or.inl ⟨hnm, hid⟩⟩
  · next hid => exact ⟨n, hn, Or.inr ⟨(Except.ok.inj hnm).symm, hid⟩⟩

/-- The node is in the graph after the command: it was there, wherever it was; or it was refreshed;
or it came with the command, as given, as a new block or as a new entry. -/
inductive Command.Yields (g : Graph) : Command → Node → Prop
  | kept {c : Command} {n : Node} (position : Point) : n ∈ g.nodes →
      Yields g c { n with position }
  | refreshed {c : Command} {n m : Node} {config : Fields} : n ∈ g.nodes →
      ({ n with config } : Node).refresh = .ok m → Yields g c m
  | given {v : Json} {n : Node} : Yields g (.addNode v) n
  | created {c : Command} {id type : String} {position : Point} {config : Fields} {n : Node} :
      Node.create id type position config = .ok n → Yields g c n
  | entry {name description : Json} (id : String) (position : Point) :
      Yields g (.addCapability name description) (.createEntry id position name description)

namespace Command

variable {g g' : Graph} {c : Command} {drawn : Nat} {n m : Node}

theorem Yields.of_mem (h : m ∈ g.nodes) : c.Yields g m := .kept m.position h

theorem yields_of_addNode (ha : g.addNode n = .ok g') (hn : c.Yields g n) (hm : m ∈ g'.nodes) :
    c.Yields g m := by
  unfold Graph.addNode at ha
  split at ha
  · cases ha
  · cases ha
    rcases List.mem_append.mp hm with hm | hm
    · exact .of_mem hm
    · rwa [List.mem_singleton.mp hm]

theorem yields_of_leads (h : c.Leads drawn g g') (hm : m ∈ g'.nodes) : c.Yields g m := by
  cases h with
  | addNode _ ha => exact yields_of_addNode ha .given hm
  | addBlock _ hn ha => exact yields_of_addNode ha (.created hn) hm
  | deleteNode hd =>
    obtain ⟨-, -, hd⟩ := bind_eq_ok.mp hd
    cases hd
    exact .of_mem (List.mem_of_mem_filter hm)
  | connect _ hc =>
    obtain ⟨_, -, hc⟩ := bind_eq_ok.mp hc
    obtain ⟨_, -, hc⟩ := bind_eq_ok.mp hc
    dsimp only at hc
    split at hc
    · cases hc
    · cases hc
      exact .of_mem hm
  | disconnect => exact .of_mem hm
  | update hu =>
    obtain ⟨n, hn, ⟨hnm, -⟩ | ⟨rfl, -⟩⟩ := Graph.of_mem_updateConfig hu hm
    · exact .refreshed hn hnm
    · exact .of_mem hn
  | move _ hmove =>
    obtain ⟨-, -, hmove⟩ := bind_eq_ok.mp hmove
    cases hmove
    obtain ⟨n, hn, rfl⟩ := List.mem_map.mp hm
    split
    · exact .kept _ hn
    · exact .of_mem hn
  | addCapability ha => exact yields_of_addNode ha (.entry _ _) hm

variable (hc : ∀ v, c ≠ .addNode v)
include hc

theorem current_of_yields (hcurrent : ∀ n ∈ g.nodes, n.isEntry = false → n.Current)
    (h : c.Yields g m) (hm : m.isEntry = false) : m.Current := by
  cases h with
  | kept position hn => exact (hcurrent _ hn hm).move position
  | refreshed hn hr =>
    exact Node.current_of_refresh hr (hcurrent _ hn (Node.isEntry_of_refresh hr ▸ hm)).noteShown hm
  | given => exact absurd rfl (hc _)
  | created hn =>
    obtain ⟨n, m', -, hnote, hr, hcreate⟩ := Node.exists_create _ _ _ _
    cases hcreate.symm.trans hn
    exact Node.current_of_refresh hr hnote hm
  | entry => cases hm

theorem titled_of_yields (htitled : ∀ n ∈ g.nodes, n.isEntry = true → n.Titled)
    (hname : ∀ name description, c = .addCapability name description → ∃ t, name = .str t)
    (h : c.Yields g m) (hm : m.isEntry = true) : m.Titled := by
  cases h with
  | kept position hn => exact (htitled _ hn hm).move position
  | refreshed hn hr => exact Node.titled_of_refresh hr hm
  | given => exact absurd rfl (hc _)
  | created hn =>
    obtain ⟨n, m', -, -, hr, hcreate⟩ := Node.exists_create _ _ _ _
    cases hcreate.symm.trans hn
    exact Node.titled_of_refresh hr hm
  | entry id position =>
    obtain ⟨t, rfl⟩ := hname _ _ rfl
    -- the empty text does not hold, and is what stands for a name that does not
    by_cases ht : t = ""
    · subst ht
      rfl
    · have hor : (Json.str t).orElse (.str "") = .str t := by simp [Json.orElse, Json.truthy, ht]
      exact congrArg some hor.symm

end Command

/-! Drawn nodes. -/

section

variable {d : Document} {stem : String} {n : Node}

theorem Item.current_of_node {i : Item} (h : i.node stem = .ok n) (hn : n.isEntry = false) :
    n.Current := by
  cases i with
  | capability k c =>
    cases h
    cases hn
  | action k a spot =>
    obtain ⟨shown, hshown, h⟩ := bind_eq_ok.mp h
    cases h
    refine ⟨rfl, rfl, rfl, ?_⟩
    intro v hv
    rw [Fields.get?_append, get?_presentation, Option.none_or] at hv
    rcases shownNote_eq_ok.mp hshown with ⟨-, rfl⟩ | ⟨note, hnote, rfl⟩
    · cases hv
    · cases hv
      exact Note.shows_iff.mpr ⟨note, Note.content_ne_empty hnote, rfl⟩

theorem Capability.KeysApart.titled_of_node {c : Capability} {k : Nat} (hkeys : c.KeysApart)
    (h : (Item.capability k c).node stem = .ok n) : n.Titled := by
  cases h
  have hname : Fields.value c.metadata "name" = (c.name.map Json.str).getD .null :=
    congrArg (fun v => v.getD .null) hkeys.get?_metadata.1
  have htitle : (Fields.value c.metadata "name").orElse (.str "") = .str c.title := by
    rw [hname, Capability.title]
    cases c.name with
    | none => rfl
    | some t => by_cases ht : t = "" <;> simp [Json.orElse, Json.truthy, ht]
  exact congrArg some htitle.symm

theorem current_of_draw {g : Graph} (h : d.draw stem = .ok g) :
    ∀ n ∈ g.nodes, n.isEntry = false → n.Current := by
  intro n hn
  obtain ⟨i, -, hi⟩ := exists_of_forall₂_right (nodes_of_draw h) n hn
  exact Item.current_of_node hi

theorem titled_of_draw {g : Graph} (h : d.draw stem = .ok g)
    (hkeys : ∀ c ∈ d.capabilities, c.KeysApart) : ∀ n ∈ g.nodes, n.isEntry = true → n.Titled := by
  intro n hn hentry
  obtain ⟨p, hp, hnode⟩ :=
    exists_of_forall₂_right (entries_of_draw h) n (List.mem_filter.mpr ⟨hn, hentry⟩)
  exact (hkeys p.2 (d.map_placed ▸ List.mem_map_of_mem hp)).titled_of_node hnode

end

namespace Graph

variable {g g' : Graph}

theorem exists_of_mem_arrange {settings : Settings} {m : Node}
    (h : m ∈ (g.arrange settings).nodes) : ∃ n ∈ g.nodes, ∃ position, { n with position } = m := by
  obtain ⟨n, hn, rfl⟩ := List.mem_map.mp h
  exact ⟨n, hn, _, rfl⟩

/-- The data edges are computed of the nodes alone. -/
theorem inferDataEdges_eq {nodes : List Node} {edges : List Edge}
    (h : edges.filter (·.isData) = []) : inferDataEdges nodes edges = inferDataEdges nodes [] := by
  rw [inferDataEdges, h]
  rfl

theorem edges_annotate (h : g.dataEdges = []) : g.annotate.edges =
    g.annotate.structuralEdges ++ inferDataEdges g.annotate.nodes [] := by
  have hall : g.structuralEdges = g.edges := by
    refine List.filter_eq_self.mpr fun e he => ?_
    have hdata := List.filter_eq_nil_iff.mp h e he
    simpa [Edge.isStructural] using hdata
  rw [structuralEdges_annotate, hall, ← inferDataEdges_eq h]
  rfl

end Graph

namespace Session

variable {s : Session} {rs : List (Nat × Request)}

/-- The data edges of every snapshot are computed of its nodes. -/
theorem edges_run (hs : ∀ g ∈ s.history.snapshots,
      g.edges = g.structuralEdges ++ inferDataEdges g.nodes []) :
    ∀ g ∈ (s.run rs).history.snapshots,
      g.edges = g.structuralEdges ++ inferDataEdges g.nodes [] := by
  refine snapshots_run hs ?_ rs
  intro _ _ _ _ _ hr
  obtain ⟨edited, rfl, -⟩ := Request.recorded?_eq_some hr
  exact Graph.edges_annotate edited.dataEdges_stripDataEdges

/-- What holds of every node of a session, wherever the node is, holds of every node after requests
if it does of those that a command of theirs yields. -/
theorem nodes_run {P : Node → Prop} (hs : ∀ g ∈ s.history.snapshots, ∀ n ∈ g.nodes, P n)
    (hmove : ∀ n position, P n → P { n with position })
    (hstep : ∀ r ∈ rs, ∀ c, r.2 = .edit c → ∀ {g m}, (∀ n ∈ g.nodes, P n) → c.Yields g m → P m) :
    ∀ g ∈ (s.run rs).history.snapshots, ∀ n ∈ g.nodes, P n := by
  refine snapshots_run_of_mem hs ?_
  intro r hr g g' hg hrecorded m hm
  obtain ⟨edited, rfl, hedit⟩ := Request.recorded?_eq_some hrecorded
  rcases hedit with ⟨c, hc, hleads⟩ | ⟨-, rfl⟩
  · exact hstep r hr c hc hg (Command.yields_of_leads hleads hm)
  · obtain ⟨n, hn, position, rfl⟩ := Graph.exists_of_mem_arrange hm
    exact hmove n position (hg n hn)

section

variable (hrs : ∀ r ∈ rs, ∀ v, r.2 ≠ .edit (.addNode v))
include hrs

theorem current_run
    (hs : ∀ g ∈ s.history.snapshots, ∀ n ∈ g.nodes, n.isEntry = false → n.Current) :
    ∀ g ∈ (s.run rs).history.snapshots, ∀ n ∈ g.nodes, n.isEntry = false → n.Current := by
  refine nodes_run hs (fun n position h hn => (h hn).move position) ?_
  intro r hr c hc g m hg hm
  exact Command.current_of_yields (fun v hv => hrs r hr v (hv ▸ hc)) hg hm

theorem titled_run
    (hnames : ∀ r ∈ rs, ∀ name description, r.2 = .edit (.addCapability name description) →
      ∃ t, name = .str t)
    (hs : ∀ g ∈ s.history.snapshots, ∀ n ∈ g.nodes, n.isEntry = true → n.Titled) :
    ∀ g ∈ (s.run rs).history.snapshots, ∀ n ∈ g.nodes, n.isEntry = true → n.Titled := by
  refine nodes_run hs (fun n position h hn => (h hn).move position) ?_
  intro r hr c hc g m hg hm
  exact Command.titled_of_yields (fun v hv => hrs r hr v (hv ▸ hc)) hg
    (fun name description hv => hnames r hr name description (hv ▸ hc)) hm

end

section

variable {d : Document} {settings : Settings}

/-- A new session has one snapshot, the drawn flow with its data edges, each node in its place. -/
theorem exists_draw_of_start (h : start d settings = .ok s) : ∃ g, d.draw defaultStem = .ok g ∧
    s.history.snapshots = [(g.arrange settings).annotate] := by
  obtain ⟨loaded, hload, h⟩ := bind_eq_ok.mp h
  cases h
  obtain ⟨g, hg, hload⟩ := bind_eq_ok.mp hload
  cases hload
  exact ⟨g, hg, rfl⟩

theorem nodes_start {P : Node → Prop} (h : start d settings = .ok s)
    (hmove : ∀ n position, P n → P { n with position })
    (hdraw : ∀ g, d.draw defaultStem = .ok g → ∀ n ∈ g.nodes, P n) :
    ∀ g ∈ s.history.snapshots, ∀ n ∈ g.nodes, P n := by
  obtain ⟨g, hg, hs⟩ := exists_draw_of_start h
  intro g' hg' m hm
  rw [hs, List.mem_singleton] at hg'
  subst hg'
  obtain ⟨n, hn, position, rfl⟩ := Graph.exists_of_mem_arrange hm
  exact hmove n position (hdraw g hg n hn)

theorem edges_start (h : start d settings = .ok s) : ∀ g ∈ s.history.snapshots,
    g.edges = g.structuralEdges ++ inferDataEdges g.nodes [] := by
  obtain ⟨drawn, hdrawn, hs⟩ := exists_draw_of_start h
  have hdata := Graph.dataEdges_of_draw hdrawn
  intro g hg
  rw [hs, List.mem_singleton] at hg
  subst hg
  exact Graph.edges_annotate (g := drawn.arrange settings) hdata

theorem current_start (h : start d settings = .ok s) :
    ∀ g ∈ s.history.snapshots, ∀ n ∈ g.nodes, n.isEntry = false → n.Current :=
  nodes_start h (fun _ position h hn => (h hn).move position) fun _ hg => current_of_draw hg

theorem titled_start (h : start d settings = .ok s) (hkeys : ∀ c ∈ d.capabilities, c.KeysApart) :
    ∀ g ∈ s.history.snapshots, ∀ n ∈ g.nodes, n.isEntry = true → n.Titled :=
  nodes_start h (fun _ position h hn => (h hn).move position) fun _ hg => titled_of_draw hg hkeys

/-- In a session over a document that was read, nothing that is shown is out of date unless a node is
added as it is given: the data edges are those between the nodes, and every node shows what it is.
An entry shows its name, if capabilities are named by texts. -/
theorem nothing_stale {v : Json} (hd : Document.ofJson v = .accepted d)
    (h : start d settings = .ok s) (hrs : ∀ r ∈ rs, ∀ v, r.2 ≠ .edit (.addNode v)) :
    (∀ g ∈ (s.run rs).history.snapshots,
        g.edges = g.structuralEdges ++ inferDataEdges g.nodes [] ∧
          ∀ n ∈ g.nodes, n.isEntry = false → n.Current) ∧
      ((∀ r ∈ rs, ∀ name description, r.2 = .edit (.addCapability name description) →
          ∃ t, name = .str t) →
        ∀ g ∈ (s.run rs).history.snapshots, ∀ n ∈ g.nodes, n.isEntry = true → n.Titled) := by
  have hkeys : ∀ c ∈ d.capabilities, c.KeysApart :=
    fun c hc => ((Document.of_ofJson hd).2 c hc).1
  refine ⟨fun g hg => ⟨?_, ?_⟩, fun hnames => ?_⟩
  · exact edges_run (edges_start h) g hg
  · exact current_run hrs (current_start h) g hg
  · exact titled_run hrs hnames (titled_start h hkeys)

/-- The leaf with the note is written anew, and capabilities without a name come and go. -/
def touches : List (Nat × Request) :=
  [(0, .edit (.update "node_6" [("message", .str "over")])),
    (0, .edit (.addCapability (.str "") .null)), (1, .undo), (1, .relayout),
    (1, .edit (.addBlock (.str "capability") none []))]

theorem nothing_stale_sample :
    Document.ofJson Document.sample.toJson = .accepted Document.sample ∧
      ∃ s, start Document.sample {} = .ok s ∧
        ∀ g ∈ (s.run touches).history.snapshots,
          ∀ n ∈ g.nodes, (n.isEntry = false → n.Current) ∧ (n.isEntry = true → n.Titled) := by
  have hd : Document.ofJson Document.sample.toJson = .accepted Document.sample := rfl
  obtain ⟨s, hs⟩ : ∃ s, start Document.sample {} = .ok s := ⟨_, rfl⟩
  have hrs : ∀ r ∈ touches, ∀ v, r.2 ≠ .edit (.addNode v) := by simp [touches]
  obtain ⟨hcurrent, htitled⟩ := nothing_stale hd hs hrs
  refine ⟨hd, s, hs, fun g hg n hn => ⟨(hcurrent g hg).2 n hn, htitled ?_ g hg n hn⟩⟩
  simp [touches]

end

end Session

end ScriptFlow
