import ScriptFlow.Proofs.Carrying
import ScriptFlow.Proofs.Keyed
import ScriptFlow.Proofs.Reopening
import ScriptFlow.Proofs.Summary

/-! What the digests tell. The text that is digested of a configuration tells it but for its note and
for the order of keys, and that of a flow tells what its summary is made of. So a note that was
written for another configuration is shown as stale, and a flow that differs from the one that was
saved is flagged, unless two different texts have one digest, which for notes is cut to twelve
digits. -/

namespace ScriptFlow

namespace Digest

/-- The bytes of an ASCII text. -/
def bytesOf (cs : List Char) : List UInt8 := cs.map fun c => c.toNat.toUInt8

/-- Texts with different bytes whose digests start with the same digits. -/
def Collide (count : Nat) (cs ds : List Char) : Prop :=
  bytesOf cs ≠ bytesOf ds ∧ (hexText (sha256 (bytesOf cs))).toList.take count =
    (hexText (sha256 (bytesOf ds))).toList.take count

theorem length_bigEndian (width n : Nat) : (bigEndian width n).length = width := by
  induction width generalizing n with
  | zero => rfl
  | succ width ih => rw [bigEndian, List.length_append, ih, List.length_singleton]

theorem length_hexText (bytes : List UInt8) :
    (hexText bytes).toList.length = bytes.length * 2 := by
  rw [hexText, String.toList_ofList, List.length_flatMap]
  simp

theorem length_ofAscii (cs : List Char) : (ofAscii cs).toList.length = 64 := by
  rw [ofAscii, length_hexText, sha256, List.length_flatMap]
  simp [length_bigEndian]

theorem bytesOf_inj {cs ds : List Char} (hcs : ∀ c ∈ cs, c.toNat < 128)
    (hds : ∀ c ∈ ds, c.toNat < 128) : bytesOf cs = bytesOf ds ↔ cs = ds := by
  have hback : ∀ cs : List Char, (∀ c ∈ cs, c.toNat < 128) →
      (bytesOf cs).map (fun b => Char.ofNat b.toNat) = cs := by
    intro cs hcs
    rw [bytesOf, List.map_map]
    refine (List.map_congr_left fun c hc => ?_).trans (List.map_id cs)
    have hc := hcs c hc
    have hbyte : c.toNat.toUInt8.toNat = c.toNat := by
      rw [Nat.toUInt8_eq, UInt8.toNat_ofNat']
      omega
    rw [Function.comp_apply, hbyte, Char.ofNat_toNat, id]
  refine ⟨fun h => ?_, congrArg _⟩
  rw [← hback cs hcs, h, hback ds hds]

/-- Digests start with the same digits if and only if the texts are the same or collide. -/
theorem take_ofAscii_eq_iff (count : Nat) {cs ds : List Char} (hcs : ∀ c ∈ cs, c.toNat < 128)
    (hds : ∀ c ∈ ds, c.toNat < 128) :
    (ofAscii cs).toList.take count = (ofAscii ds).toList.take count ↔
      cs = ds ∨ Collide count cs ds := by
  rw [Collide, ne_eq, bytesOf_inj hcs hds]
  constructor
  · intro h
    by_cases heq : cs = ds
    · exact Or.inl heq
    · exact Or.inr ⟨heq, h⟩
  · rintro (rfl | ⟨-, h⟩)
    · rfl
    · exact h

theorem ofAscii_eq_iff {cs ds : List Char} (hcs : ∀ c ∈ cs, c.toNat < 128)
    (hds : ∀ c ∈ ds, c.toNat < 128) : ofAscii cs = ofAscii ds ↔ cs = ds ∨ Collide 64 cs ds := by
  have htake : ∀ cs, (ofAscii cs).toList.take 64 = (ofAscii cs).toList :=
    fun cs => List.take_of_length_le (length_ofAscii cs).le
  rw [← take_ofAscii_eq_iff 64 hcs hds, htake, htake, String.toList_inj]

end Digest

theorem toNat_lt_of_mem_canonicalChars (v : Json) : ∀ c ∈ v.canonicalChars, c.toNat < 128 :=
  Json.toNat_lt_of_mem_chars v.sorted

/-! Configurations. -/

/-- The same configuration but for the note and for the order of keys. -/
def Fields.SameConfig (fs gs : Fields) : Prop :=
  (Json.obj (fs.without [noteKey])).Alike (.obj (gs.without [noteKey]))

section

variable {fs gs : Fields}

theorem configText_eq_iff (hfs : fs.Keyed) (hgs : gs.Keyed) :
    configText fs = configText gs ↔ fs.SameConfig gs :=
  Json.canonicalChars_eq_iff (Json.keyed_obj.mpr (hfs.without _)) (Json.keyed_obj.mpr (hgs.without _))

theorem toNat_lt_of_mem_configText (fs : Fields) : ∀ c ∈ configText fs, c.toNat < 128 :=
  toNat_lt_of_mem_canonicalChars _

theorem configDigest_eq_iff (hfs : fs.Keyed) (hgs : gs.Keyed) : configDigest fs = configDigest gs ↔
    fs.SameConfig gs ∨ Digest.Collide 12 (configText fs) (configText gs) := by
  rw [configDigest, configDigest, String.ofList_inj, Digest.take_ofAscii_eq_iff 12
    (toNat_lt_of_mem_configText fs) (toNat_lt_of_mem_configText gs), configText_eq_iff hfs hgs]

theorem configDigest_ne_empty (fs : Fields) : configDigest fs ≠ "" := by
  intro h
  have hlength := congrArg (fun s => s.toList.length) h
  simp [configDigest, Digest.length_ofAscii] at hlength

end

/-- The flag of a note that was written for one configuration and stands beside another one. -/
def Note.StaleFor (written current : Fields) (stale : Bool) : Prop :=
  stale = false ↔ written.SameConfig current ∨
    Digest.Collide 12 (configText written) (configText current)

theorem Note.staleFor_isStale {n : Note} {fs gs : Fields} (hfs : fs.Keyed) (hgs : gs.Keyed)
    (hn : n.digest = some (configDigest fs)) : StaleFor fs gs (n.isStale gs) := by
  rw [StaleFor, ← configDigest_eq_iff hfs hgs, isStale, hn]
  simp [configDigest_ne_empty]

/-- A shown note is flagged for the configuration it was written for. -/
theorem Note.Shows.staleFor {note fs gs : Fields} (h : Shows gs (.obj note)) (hfs : fs.Keyed)
    (hgs : gs.Keyed) (hn : note.get? "configHash" = some (.str (configDigest fs))) :
    ∃ stale, note.get? "stale" = some (.bool stale) ∧ StaleFor fs gs stale := by
  obtain ⟨n, -, hshown⟩ := shows_iff.mp h
  obtain rfl := Json.obj.inj hshown
  refine ⟨n.isStale gs, rfl, staleFor_isStale hfs hgs ?_⟩
  have hdigest : (n.digest.map Json.str).getD .null = .str (configDigest fs) := Option.some.inj hn
  cases hd : n.digest with
  | none =>
    rw [hd] at hdigest
    cases hdigest
  | some t =>
    rw [hd] at hdigest
    exact congrArg some (Json.str.inj hdigest)

/-- The note on a node, if it has content, is flagged for the configuration it was written for. -/
def Node.Flagged (n : Node) : Prop :=
  ∀ note fs : Fields, n.presentation.get? "note" = some (.obj note) →
    (note.value "content").truthy = true → fs.Keyed →
    note.get? "configHash" = some (.str (configDigest fs)) →
      ∃ stale, note.get? "stale" = some (.bool stale) ∧ Note.StaleFor fs n.config stale

theorem Node.Current.flagged {n : Node} (h : n.Current) (hn : n.config.Keyed) : n.Flagged :=
  fun _ _ hnote _ hfs hdigest => (h.note _ hnote).staleFor hfs hn hdigest

/-- A refresh shows the note on a node if it has content, whatever the note was. -/
theorem Node.shows_of_refresh {n m : Node} {note : Fields} (h : n.refresh = .ok m)
    (hm : m.isEntry = false) (hnote : m.presentation.get? "note" = some (.obj note))
    (hcontent : (note.value "content").truthy = true) : Note.Shows m.config (.obj note) := by
  have hn : n.isEntry = false := isEntry_of_refresh h ▸ hm
  rw [config_of_refresh h]
  unfold refresh at h
  rw [if_neg (Bool.eq_false_iff.mp hn)] at h
  dsimp only at h
  split at h
  · next hnone =>
    -- the note is as it was, and one with content would have been read
    cases h
    rw [Fields.value, hnote] at hnone
    simp [Note.refresh?, Note.ofPayload?, Json.fields?, hcontent] at hnone
  · next checked hsome =>
    obtain ⟨shown, hshown, h⟩ := bind_eq_ok.mp h
    cases h
    rw [Fields.get?_set_self, Option.some.injEq, Json.obj.injEq] at hnote
    subst hnote
    rw [Checked.orFault_eq_ok.mp hshown] at hsome
    obtain ⟨payload, written, -, hpayload, rfl⟩ := Note.exists_of_refresh? hsome
    obtain ⟨htruthy, htext, -⟩ := Note.of_ofPayload? hpayload
    exact Note.shows_iff.mpr ⟨written, htext ▸ Json.text_ne_empty htruthy, rfl⟩

/-- Whatever the flow, an edit of a configuration flags the note. -/
theorem Graph.flagged_of_updateConfig {g g' : Graph} {id : String} {changes : Fields}
    (hg : g.Keyed) (hchanges : changes.Keyed) (h : g.updateConfig id changes = .ok g') {m : Node}
    (hm : m ∈ g'.nodes) (hid : m.id = id) (hentry : m.isEntry = false) : m.Flagged := by
  have hcommand : (Command.update id changes).keyed = true := Json.keyed_obj.mpr hchanges
  have hleads : (Command.update id changes).Leads 0 g g' := .update h
  have hkeyed := hg.leads hcommand hleads m hm
  intro note fs hnote hcontent hfs hdigest
  obtain ⟨n, -, ⟨hnm, -⟩ | ⟨rfl, hne⟩⟩ := Graph.of_mem_updateConfig h hm
  · exact (Node.shows_of_refresh hnm hentry hnote hcontent).staleFor hfs hkeyed hdigest
  · exact absurd hid hne

/-! Flows. -/

/-- What is digested of two nodes is the same, the order of keys apart. -/
structure Node.StateAlike (n m : Node) : Prop where
  id : n.id = m.id
  kind : n.kind = m.kind
  actionType : n.actionType = m.actionType
  config : (Json.obj n.config).Alike (.obj m.config)
  position : n.position = m.position

/-- What is digested of an edge. -/
def Edge.state (e : Edge) : String × String × String × Branch × Bool :=
  (e.id, e.source, e.target, e.branch, e.isData)

/-- The nodes of two flows are alike one by one, and their edges are the same in some order. -/
structure Graph.StateAlike (g h : Graph) : Prop where
  nodes : List.Forall₂ Node.StateAlike g.nodes h.nodes
  edges : (g.edges.map Edge.state).Perm (h.edges.map Edge.state)

theorem Node.sorted_summary_eq_iff {n m : Node} (hn : n.config.Keyed) (hm : m.config.Keyed) :
    n.summary.sorted = m.summary.sorted ↔ n.StateAlike m := by
  have hsorted : ∀ n : Node, n.summary.sorted = .arr [.str n.id, .str n.kind.name,
      .str n.actionType, (Json.obj n.config).sorted, .float n.position.x, .float n.position.y] :=
    fun _ => rfl
  have hpoint : n.position.x = m.position.x ∧ n.position.y = m.position.y ↔
      n.position = m.position := by
    rw [Point.mk.injEq]
  rw [hsorted, hsorted]
  simp only [Json.arr.injEq, List.cons.injEq, Json.str.injEq, Json.float.injEq, and_true,
    NodeKind.name_injective.eq_iff,
    Json.sorted_eq_iff (Json.keyed_obj.mpr hn) (Json.keyed_obj.mpr hm), hpoint]
  exact ⟨fun ⟨hid, hkind, htype, hconfig, hposition⟩ => ⟨hid, hkind, htype, hconfig, hposition⟩,
    fun h => ⟨h.id, h.kind, h.actionType, h.config, h.position⟩⟩

theorem Edge.summary_eq_iff_state {e f : Edge} : e.summary = f.summary ↔ e.state = f.state := by
  simp [summary, state, Branch.name_injective.eq_iff]

theorem forall₂_congr_of_mem {α β : Type} {R S : α → β → Prop} {xs : List α} {ys : List β}
    (h : ∀ x ∈ xs, ∀ y ∈ ys, (R x y ↔ S x y)) : List.Forall₂ R xs ys ↔ List.Forall₂ S xs ys := by
  rw [List.forall₂_iff_get, List.forall₂_iff_get]
  refine and_congr_right fun _ => forall_congr' fun i => forall_congr' fun hi => ?_
  exact forall_congr' fun hi' => h _ (List.get_mem _ _) _ (List.get_mem _ _)

namespace Graph

variable {g h : Graph}

theorem sorted_summary_eq_iff : g.summary.sorted = h.summary.sorted ↔
    List.Forall₂ (fun n m => n.summary.sorted = m.summary.sorted) g.nodes h.nodes ∧
      (g.edges.map Edge.summary).Perm (h.edges.map Edge.summary) := by
  have hsorted : ∀ g : Graph, g.summary.sorted = .obj (Json.sortFields
      [("nodes", .arr (g.nodes.map fun n => n.summary.sorted)),
        ("edges", .arr ((g.edges.mergeSort Edge.le).map Edge.summary))]) := by
    intro g
    have hedges : (g.edges.mergeSort Edge.le).map (Json.sorted ∘ Edge.summary) =
        (g.edges.mergeSort Edge.le).map Edge.summary :=
      List.map_congr_left fun _ _ => rfl
    simp only [summary, Json.sorted, Json.sortedFields, Json.sortedItems_eq_map, List.map_map,
      hedges]
    rfl
  have hfields : ∀ {v v' w w' : Json}, Json.sortFields [("nodes", v), ("edges", w)] =
      Json.sortFields [("nodes", v'), ("edges", w')] ↔ v = v' ∧ w = w' := by
    intro v v' w w'
    rw [Json.sortFields_eq_iff (by simp), Fields.perm_iff_get? (by simp) (by simp)]
    constructor
    · intro h
      exact ⟨Option.some.inj (h "nodes"), Option.some.inj (h "edges")⟩
    · rintro ⟨rfl, rfl⟩ _
      rfl
  rw [hsorted, hsorted, Json.obj.injEq, hfields, Json.arr.injEq, Json.arr.injEq,
    Edge.map_summary_mergeSort, ← List.forall₂_eq_eq_eq, List.forall₂_map_left_iff,
    List.forall₂_map_right_iff]

theorem canonicalChars_summary_eq_iff (hg : g.Keyed) (hh : h.Keyed) :
    g.summary.canonicalChars = h.summary.canonicalChars ↔ g.StateAlike h := by
  have hedges : (g.edges.map Edge.summary).Perm (h.edges.map Edge.summary) ↔
      (g.edges.map Edge.state).Perm (h.edges.map Edge.state) :=
    ⟨perm_map_of_perm_map fun _ _ => Edge.summary_eq_iff_state.mp,
      perm_map_of_perm_map fun _ _ => Edge.summary_eq_iff_state.mpr⟩
  have hnodes := forall₂_congr_of_mem fun n hn m hm => Node.sorted_summary_eq_iff (hg n hn) (hh m hm)
  rw [Json.canonicalChars, Json.canonicalChars, Json.chars_injective.eq_iff, sorted_summary_eq_iff,
    hnodes, hedges]
  exact ⟨fun h => ⟨h.1, h.2⟩, fun h => ⟨h.nodes, h.edges⟩⟩

theorem digest_eq_iff (hg : g.Keyed) (hh : h.Keyed) : g.digest = h.digest ↔ g.StateAlike h ∨
    Digest.Collide 64 g.summary.canonicalChars h.summary.canonicalChars := by
  rw [digest, digest, Digest.ofAscii_eq_iff (toNat_lt_of_mem_canonicalChars _)
    (toNat_lt_of_mem_canonicalChars _), canonicalChars_summary_eq_iff hg hh]

end Graph

/-! Sessions. -/

namespace Session

variable {s t : Session}

/-- What a session says of changes since it was in another state, in which there were none. -/
def ChangedSince (s t : Session) : Prop :=
  t.hasChanges = false ↔ s.graph.StateAlike t.graph ∨
    Digest.Collide 64 s.graph.summary.canonicalChars t.graph.summary.canonicalChars

theorem hasChanges_eq_false : s.hasChanges = false ↔ s.graph.digest = s.savedDigest := by
  rw [hasChanges, bne_eq_false_iff_eq]

theorem savedDigest_run {rs : List (Nat × Request)} (hrs : ∀ r ∈ rs, r.2 ≠ .save) :
    (s.run rs).savedDigest = s.savedDigest := by
  induction rs generalizing s with
  | nil => rfl
  | cons r rs ih =>
    obtain ⟨hr, hrs⟩ := List.forall_mem_cons.mp hrs
    rw [run_cons, ih hrs]
    rcases s.next_cases r.1 r.2 with h | ⟨d, hsave, -⟩
    · rw [h]
    · exact absurd hsave hr

theorem changedSince_run {rs : List (Nat × Request)} (hs : ∀ g ∈ s.history.snapshots, g.Keyed)
    (hrs : ∀ r ∈ rs, r.2.keyed = true) (hunchanged : s.hasChanges = false)
    (hsave : ∀ r ∈ rs, r.2 ≠ .save) : ChangedSince s (s.run rs) := by
  have hstart := hs _ s.history.current_mem_snapshots
  have hend := keyed_run hs hrs _ (s.run rs).history.current_mem_snapshots
  rw [ChangedSince, hasChanges_eq_false, savedDigest_run hsave, ← hasChanges_eq_false.mp hunchanged,
    eq_comm]
  exact Graph.digest_eq_iff hstart hend

theorem hasChanges_start {d : Document} {settings : Settings} (h : start d settings = .ok s) :
    s.hasChanges = false := by
  obtain ⟨g, -, h⟩ := bind_eq_ok.mp h
  cases h
  exact hasChanges_eq_false.mpr rfl

theorem hasChanges_save (h : s.save = .ok t) : t.hasChanges = false := by
  obtain ⟨d, -, h⟩ := bind_eq_ok.mp h
  cases h
  exact hasChanges_eq_false.mpr rfl

end Session

/-- The text that is digested of a configuration tells it but for its note and for the order of keys.
The text of a flow tells its nodes, with the configurations but for the order of keys, and its edges
in no order. So a note with the digest of a configuration is stale beside those that differ from it,
on a node of any flow once the node was edited, and in a session over a dictionary, to which only
dictionaries come in, at all times unless nodes are added as they are given. And a session without
changes, as a new one and one that was saved, has changes after requests if its flow differs from the
one it had. Nothing else is flagged, and what collides is not. -/
theorem digests_exact :
    (∀ fs gs : Fields, fs.Keyed → gs.Keyed → (configText fs = configText gs ↔ fs.SameConfig gs)) ∧
    (∀ g h : Graph, g.Keyed → h.Keyed →
      (g.summary.canonicalChars = h.summary.canonicalChars ↔ g.StateAlike h)) ∧
    (∀ (n : Note) (fs gs : Fields), fs.Keyed → gs.Keyed → n.digest = some (configDigest fs) →
      Note.StaleFor fs gs (n.isStale gs)) ∧
    (∀ (g g' : Graph) (id : String) (changes : Fields), g.Keyed → changes.Keyed →
      g.updateConfig id changes = .ok g' →
        ∀ n ∈ g'.nodes, n.id = id → n.isEntry = false → n.Flagged) ∧
    ∀ (v : Json) (d : Document) (settings : Settings) (s : Session) (rs rs' : List (Nat × Request)),
      v.keyed = true → Document.ofJson v = .accepted d → Session.start d settings = .ok s →
      (∀ r ∈ rs, r.2.keyed = true) → (∀ r ∈ rs', r.2.keyed = true) →
        s.hasChanges = false ∧ (∀ t, (s.run rs).save = .ok t → t.hasChanges = false) ∧
        ((s.run rs).hasChanges = false → (∀ r ∈ rs', r.2 ≠ .save) →
          Session.ChangedSince (s.run rs) ((s.run rs).run rs')) ∧
        ((∀ r ∈ rs, ∀ node, r.2 ≠ .edit (.addNode node)) →
          ∀ n ∈ (s.run rs).graph.nodes, n.isEntry = false → n.Flagged) := by
  refine ⟨fun _ _ => configText_eq_iff, fun _ _ => Graph.canonicalChars_summary_eq_iff,
    fun _ _ _ => Note.staleFor_isStale, ?_, ?_⟩
  · intro g g' id changes hg hchanges h n
    exact Graph.flagged_of_updateConfig hg hchanges h
  · intro v d settings s rs rs' hv hd hs hrs hrs'
    have hkeyed := Session.keyed_run (Session.keyed_start hv hd hs) hrs
    have hcurrent := (s.run rs).history.current_mem_snapshots
    refine ⟨Session.hasChanges_start hs, fun _ => Session.hasChanges_save,
      Session.changedSince_run hkeyed hrs', ?_⟩
    intro hgiven n hn hentry
    exact (Session.current_run hgiven (Session.current_start hs) _ hcurrent n hn hentry).flagged
      (hkeyed _ hcurrent n hn)

/-- The configuration of a pause. -/
def pauseConfig (ms : Int) : Fields := [("type", .str "wait"), ("ms", .int ms)]

/-- The same with a note, and in another order. -/
def notedConfig (ms : Int) : Fields := [("ms", .int ms), (noteKey, pauseNote), ("type", .str "wait")]

theorem keyed_pauseConfig (ms : Int) : (pauseConfig ms).Keyed := Json.keyed_obj.mp rfl

theorem keyed_notedConfig (ms : Int) : (notedConfig ms).Keyed := Json.keyed_obj.mp rfl

theorem sameConfig_notedConfig {ms ms' : Int} :
    (pauseConfig ms).SameConfig (notedConfig ms') ↔ ms = ms' := by
  constructor
  · intro h
    obtain ⟨gs, hgs, hfields⟩ := Json.discerning_alike.fields h
    obtain ⟨v, hv, halike⟩ := hfields "ms" (.int ms) rfl
    obtain rfl := Json.obj.inj hgs
    obtain rfl : Json.int ms' = v := Option.some.inj hv
    cases halike
    rfl
  · rintro rfl
    have hget : ∀ key, Fields.get? [("type", .str "wait"), ("ms", .int ms)] key =
        Fields.get? [("ms", .int ms), ("type", .str "wait")] key := by
      intro key
      simp only [Fields.get?_cons, Fields.get?_nil]
      split
      · next h =>
        rw [if_neg (h ▸ by decide)]
      · rfl
    refine .obj (fun key => congrArg Option.isSome (hget key)) fun key v w hv hw => ?_
    obtain rfl : v = w := Option.some.inj (hv.symm.trans ((hget key).trans hw))
    exact .refl v

theorem keyed_noted (shown : Fields) : (noted shown).Keyed :=
  List.forall_mem_cons.mpr ⟨Json.keyed_obj.mp rfl,
    List.forall_mem_cons.mpr ⟨Json.keyed_obj.mp rfl, List.forall_mem_nil _⟩⟩

/-- A script of a pause with a note that was written for a configuration with this digest. -/
def notedPause (digest : String) : Document :=
  .lone "wait" [("ms", .int 1),
    (noteKey, .obj [("content", .str "pause"), ("configHash", .str digest)])]

/-- The pause of the script is made longer. -/
def lengthen : Nat × Request := (0, .edit (.update "node_2" [("ms", .int 2)]))

/-- The node of the pause and its note, after the pause was made longer. -/
theorem run_lengthen (digest : String) : ∃ s, Session.start (notedPause digest) {} = .ok s ∧
    ∃ n ∈ (s.run [lengthen]).graph.nodes, n.isEntry = false ∧ n.config.get? "ms" = some (.int 2) ∧
      ∃ note : Fields, n.presentation.get? "note" = some (.obj note) ∧
        (note.value "content").truthy = true ∧ note.get? "configHash" = some (.str digest) :=
  ⟨_, rfl, _, .tail _ (.head _), rfl, rfl, _, rfl, rfl, rfl⟩

/-- A note whose flag does not hold, on a node that was added as it is given. -/
def misflagged : Fields :=
  [("note", .obj [("content", .str "pause"), ("configHash", .str (configDigest (pauseConfig 1))),
    ("stale", .bool true)])]

/-- The digest of a pause of one millisecond marks a note on a longer one, beside which it stands
after an edit, and the flow is as it was when the edit is undone. -/
theorem digests_exact_lengthened :
    configText (pauseConfig 1) = configText (notedConfig 1) ∧
    configText (pauseConfig 1) ≠ configText (notedConfig 2) ∧
    (noted []).summary.canonicalChars = (noted [("note", pauseNote)]).summary.canonicalChars ∧
    Note.StaleFor (pauseConfig 1) (notedConfig 2)
      (Note.isStale ⟨"pause", some (configDigest (pauseConfig 1))⟩ (notedConfig 2)) ∧
    (∃ g', (noted misflagged).updateConfig "act" [("ms", .int 1)] = .ok g' ∧
      ∃ n ∈ g'.nodes, n.id = "act" ∧ n.Flagged) ∧
    ∃ s, Session.start (notedPause (configDigest (pauseConfig 1))) {} = .ok s ∧
      s.hasChanges = false ∧ Session.ChangedSince s (s.run [lengthen]) ∧
      Session.ChangedSince s (s.run [lengthen, (0, .undo)]) ∧
      ∃ n ∈ (s.run [lengthen]).graph.nodes, n.config.get? "ms" = some (.int 2) ∧
        ∃ (note : Fields) (stale : Bool), n.presentation.get? "note" = some (.obj note) ∧
          note.get? "stale" = some (.bool stale) ∧
          Note.StaleFor (pauseConfig 1) n.config stale := by
  obtain ⟨hconfig, hgraph, hnote, hedit, hsession⟩ := digests_exact
  refine ⟨?_, ?_, ?_, hnote _ _ _ (keyed_pauseConfig 1) (keyed_notedConfig 2) rfl, ?_, ?_⟩
  · exact (hconfig _ _ (keyed_pauseConfig 1) (keyed_notedConfig 1)).mpr
      (sameConfig_notedConfig.mpr rfl)
  · intro h
    exact absurd (sameConfig_notedConfig.mp
      ((hconfig _ _ (keyed_pauseConfig 1) (keyed_notedConfig 2)).mp h)) (by decide)
  · exact (hgraph _ _ (keyed_noted _) (keyed_noted _)).mpr
      ⟨.cons ⟨rfl, rfl, rfl, .refl _, rfl⟩ (.cons ⟨rfl, rfl, rfl, .refl _, rfl⟩ .nil), .refl _⟩
  · obtain ⟨g', hg', n, hn, hid, hentry⟩ : ∃ g', (noted misflagged).updateConfig "act"
        [("ms", .int 1)] = .ok g' ∧ ∃ n ∈ g'.nodes, n.id = "act" ∧ n.isEntry = false :=
      ⟨_, rfl, _, .tail _ (.head _), rfl, rfl⟩
    exact ⟨g', hg', n, hn, hid, hedit _ _ _ _ (keyed_noted _) (Json.keyed_obj.mp rfl) hg' n hn hid
      hentry⟩
  · obtain ⟨s, hs, n, hn, hentry, hms, note, hshown, hcontent, hdigest⟩ :=
      run_lengthen (configDigest (pauseConfig 1))
    have hfrom := fun rs rs' => hsession (notedPause (configDigest (pauseConfig 1))).toJson _ _ s
      rs rs' rfl rfl hs
    obtain ⟨hstart, -, hchanged, -⟩ := hfrom [] [lengthen] (by simp) (by decide)
    obtain ⟨-, -, hundone, -⟩ := hfrom [] [lengthen, (0, .undo)] (by simp) (by decide)
    obtain ⟨-, -, -, hflags⟩ := hfrom [lengthen] [] (by decide) (by simp)
    obtain ⟨stale, hstale, hfor⟩ := hflags (by simp [lengthen]) n hn hentry note _ hshown hcontent
      (keyed_pauseConfig 1) hdigest
    exact ⟨s, hs, hstart, hchanged hstart (by simp [lengthen]), hundone hstart (by simp [lengthen]),
      n, hn, hms, note, stale, hshown, hstale, hfor⟩

end ScriptFlow
