import ScriptFlow.Proofs.Encoding
import ScriptFlow.Proofs.Current
import ScriptFlow.Proofs.Sorted

/-! The configurations in a session are dictionaries: no key is in one twice, nor in any object in it.
This holds of what comes in with a document and with requests. An action and a capability are drawn
with the fields they were read from, each under its own key, and an edit writes a field over the one
with its key, so it holds of all snapshots. -/

namespace ScriptFlow

namespace Fields

variable {fs gs : Fields} {key : String} {v : Json}

theorem keyed_nil : Keyed [] := ⟨List.nodup_nil, fun _ h => absurd h List.not_mem_nil⟩

theorem keyed_cons :
    Keyed ((key, v) :: fs) ↔ (∀ f ∈ fs, f.1 ≠ key) ∧ v.keyed = true ∧ fs.Keyed := by
  have hkey : key ∉ fs.map Prod.fst ↔ ∀ f ∈ fs, f.1 ≠ key := by
    rw [List.mem_map]
    exact ⟨fun h f hf he => h ⟨f, hf, he⟩, fun h ⟨f, hf, he⟩ => h f hf he⟩
  constructor
  · rintro ⟨hkeys, hvalues⟩
    rw [List.map_cons, List.nodup_cons, hkey] at hkeys
    rw [List.forall_mem_cons] at hvalues
    exact ⟨hkeys.1, hvalues.1, hkeys.2, hvalues.2⟩
  · rintro ⟨hne, hv, hkeys, hvalues⟩
    exact ⟨List.nodup_cons.mpr ⟨hkey.mpr hne, hkeys⟩, List.forall_mem_cons.mpr ⟨hv, hvalues⟩⟩

theorem Keyed.set (h : fs.Keyed) (hv : v.keyed = true) : (fs.set key v).Keyed := by
  induction fs with
  | nil => exact keyed_cons.mpr ⟨fun _ hf => absurd hf List.not_mem_nil, hv, keyed_nil⟩
  | cons f fs ih =>
    obtain ⟨k, w⟩ := f
    obtain ⟨hne, hw, hfs⟩ := keyed_cons.mp h
    unfold Fields.set
    split
    · next hk => exact keyed_cons.mpr ⟨hk ▸ hne, hv, hfs⟩
    · next hk =>
      refine keyed_cons.mpr ⟨fun f hf => ?_, hw, ih hfs⟩
      rcases mem_set hf with hf | rfl
      · exact hne f hf
      · exact Ne.symm hk

theorem Keyed.update (h : fs.Keyed) (hgs : ∀ g ∈ gs, g.2.keyed = true) : (fs.update gs).Keyed := by
  unfold Fields.update
  induction gs generalizing fs with
  | nil => exact h
  | cons g gs ih =>
    obtain ⟨hg, hgs⟩ := List.forall_mem_cons.mp hgs
    exact ih (h.set hg) hgs

theorem Keyed.value (h : fs.Keyed) (key : String) : (fs.value key).keyed = true := by
  unfold Fields.value
  cases hv : fs.get? key with
  | none => rfl
  | some v => exact h.of_get? hv

/-- The fields of keys that may have been left out, before other fields. -/
def withOptional (known : List (String × Option Json)) (fs : Fields) : Fields :=
  known.foldr (fun o fs => optionalField o.1 o.2 ++ fs) fs

theorem mem_withOptional {known : List (String × Option Json)} {f : String × Json}
    (h : f ∈ withOptional known fs) : f.1 ∈ known.map Prod.fst ∨ f ∈ fs := by
  induction known with
  | nil => exact Or.inr h
  | cons o known ih =>
    obtain ⟨k, v?⟩ := o
    rcases List.mem_append.mp h with h | h
    · cases v? with
      | none => exact absurd h List.not_mem_nil
      | some v =>
        obtain rfl := List.mem_singleton.mp h
        exact Or.inl List.mem_cons_self
    · exact (ih h).imp_left (List.mem_cons_of_mem _)

theorem Keyed.withOptional {known : List (String × Option Json)} (h : fs.Keyed)
    (hknown : (known.map Prod.fst).Nodup) (hvalues : ∀ o ∈ known, ∀ v ∈ o.2, v.keyed = true)
    (hapart : ∀ f ∈ fs, f.1 ∉ known.map Prod.fst) : (withOptional known fs).Keyed := by
  induction known with
  | nil => exact h
  | cons o known ih =>
    obtain ⟨k, v?⟩ := o
    obtain ⟨hk, hknown⟩ := List.nodup_cons.mp hknown
    obtain ⟨hv, hvalues⟩ := List.forall_mem_cons.mp hvalues
    have hrest := ih hknown hvalues fun f hf hm => hapart f hf (List.mem_cons_of_mem _ hm)
    cases v? with
    | none => exact hrest
    | some v =>
      refine keyed_cons.mpr ⟨fun f hf => ?_, hv v rfl, hrest⟩
      rintro rfl
      rcases mem_withOptional hf with hf | hf
      · exact hk hf
      · exact hapart f hf List.mem_cons_self

end Fields

/-! Actions. -/

namespace Action

/-- The tag and the other fields of an action, its bodies apart, are a dictionary. -/
def Keyed (a : Action) : Prop := Fields.Keyed (("type", .str a.type) :: (a.headFields ++ a.others))

theorem Keyed.config {a : Action} (h : a.Keyed) : a.config.Keyed := by
  rcases a.config_eq with hc | ⟨-, hc⟩
  · exact hc ▸ h
  · rw [hc]
    exact h.sublist ((List.filter_sublist.append_left _).cons_cons _)

variable {fs : Fields}

theorem keyed_leaf (h : fs.Keyed) (htype : ∀ f ∈ fs, f.1 ≠ "type") (type : String) :
    (leaf type fs).Keyed :=
  Fields.keyed_cons.mpr ⟨htype, rfl, h⟩

/-- A tag, and fields that are taken over from others under keys of their own. -/
theorem keyed_taken (h : fs.Keyed) (htype : ∀ f ∈ fs, f.1 ≠ "type") {tag : String}
    {taken keys : List String} (hkeys : ("type" :: taken).Nodup) (htaken : taken ⊆ keys) :
    (Fields.withOptional (("type", some (.str tag)) :: taken.map fun key => (key, fs.get? key))
      (fs.without keys)).Keyed := by
  refine (h.without keys).withOptional ?_ ?_ ?_
  · rw [List.map_cons, List.map_map]
    exact (List.map_id taken).symm ▸ hkeys
  · refine List.forall_mem_cons.mpr ⟨fun v hv => ?_, fun o ho v hv => ?_⟩
    · cases hv
      rfl
    · obtain ⟨key, -, rfl⟩ := List.mem_map.mp ho
      exact h.of_get? hv
  · intro f hf hm
    rw [List.map_cons, List.map_map] at hm
    rcases List.mem_cons.mp hm with hm | hm
    · exact htype f (List.mem_of_mem_filter hf) hm
    · exact Fields.not_mem_of_mem_without hf (htaken ((List.map_id taken).symm ▸ hm))

theorem every_keyed_ofTag {tag : String} {bodyOf : String → List Action} (h : fs.Keyed)
    (htype : ∀ f ∈ fs, f.1 ≠ "type") (hbody : ∀ key, ListEvery Keyed (bodyOf key)) :
    (ofTag tag fs bodyOf).Every Keyed := by
  have hloop : ∀ {first second : String} {keys : List String} {type : String},
      ["type", first, second].Nodup → [first, second] ⊆ keys →
        Fields.Keyed (("type", .str type) :: ((optionalField first (fs.get? first) ++
          optionalField second (fs.get? second)) ++ fs.without keys)) := by
    intro first second keys type hkeys htaken
    rw [List.append_assoc]
    exact keyed_taken h htype hkeys htaken
  unfold ofTag
  split
  · have hcondition : ["type", "condition"].Nodup := by decide
    exact ⟨keyed_taken h htype hcondition (by simp), hbody "then", hbody "else"⟩
  split
  · exact ⟨hloop (by decide) (by simp), hbody "do"⟩
  split
  · exact ⟨hloop (by decide) (by simp), hbody "do"⟩
  · exact keyed_leaf h htype tag

theorem every_keyed_ofFields {bodyOf : String → List Action} (h : fs.Keyed)
    (hbody : ∀ key, ListEvery Keyed (bodyOf key)) : (ofFields fs bodyOf).Every Keyed := by
  have htype : ∀ f ∈ fs.without ["type"], f.1 ≠ "type" := by
    intro f hf
    simpa using Fields.not_mem_of_mem_without hf
  unfold ofFields
  dsimp only
  split
  · exact every_keyed_ofTag (h.without _) htype hbody
  · exact keyed_leaf (h.without _) htype ""
  · exact keyed_leaf (h.without _) htype _

theorem inherited_keyed : Inherited (fun v => v.keyed = true) Keyed where
  items h := Json.keyed_arr.mp h
  fields h := (Json.keyed_obj.mp h).values
  scalar h := keyed_leaf (Fields.keyed_cons.mpr ⟨fun _ hf => absurd hf List.not_mem_nil, h,
    Fields.keyed_nil⟩) (by simp) ""
  object h hbody := every_keyed_ofFields (Json.keyed_obj.mp h) hbody

end Action

/-! Capabilities and documents. -/

namespace Capability

variable {fs : Fields} {c : Capability}

theorem keyed_parameters {ps : Option (List Json)} (h : fs.Keyed)
    (hp : Read.field fs "parameters" none readParameters = .accepted ps) :
    ∀ w ∈ ps.map Json.arr, w.keyed = true := by
  intro w hw
  rw [map_arr_of_readParameters hp] at hw
  obtain ⟨v, hv, rfl⟩ := Option.map_eq_some_iff.mp hw
  cases v with
  | null => rfl
  | _ => exact h.of_get? hv

/-- The entry of a capability has the fields that the capability was read from. -/
theorem keyed_metadata {actions : List Action} (h : fs.Keyed)
    (hc : ofFieldsWith fs actions = .accepted c) : c.metadata.Keyed := by
  obtain ⟨⟨-, -, hparameters⟩, htrigger, hextra, -⟩ := ofFieldsWith_eq_accepted.mp hc
  have htext : ∀ t : Option String, ∀ v ∈ t.map Json.str, v.keyed = true := by
    intro t v hv
    obtain ⟨s, -, rfl⟩ := Option.map_eq_some_iff.mp hv
    rfl
  have hmetadata : c.metadata = Fields.withOptional [("name", c.name.map .str),
      ("description", c.description.map .str), ("parameters", c.parameters.map .arr),
      ("trigger", c.trigger)] c.extra := by
    simp [metadata, Fields.withOptional]
  rw [hmetadata, hextra]
  refine (h.without _).withOptional (by simp) ?_ ?_
  · simp only [List.forall_mem_cons]
    exact ⟨htext c.name, htext c.description, keyed_parameters h hparameters,
      fun v hv => h.of_get? (htrigger ▸ hv), fun _ ho => absurd ho List.not_mem_nil⟩
  · intro f hf hm
    exact Fields.not_mem_of_mem_without hf (List.mem_of_mem_take (i := 4) hm)

theorem keyed_of_ofJson {v : Json} (h : v.keyed = true) (hc : ofJson v = .accepted c) :
    c.metadata.Keyed ∧ Action.ListEvery Action.Keyed c.actions := by
  obtain ⟨fs, rfl, hc⟩ := ofJson_eq_accepted.mp hc
  have hfs := Json.keyed_obj.mp h
  obtain ⟨-, -, -, hactions⟩ := ofFieldsWith_eq_accepted.mp hc
  rw [hactions]
  exact ⟨keyed_metadata hfs hc, Action.inherited_keyed.every_listOfJson (hfs.value _)⟩

end Capability

/-- The capabilities that are read of a dictionary, and the actions in them, are dictionaries. -/
theorem Document.keyed_of_ofJson {v : Json} {d : Document} (h : v.keyed = true)
    (hd : Document.ofJson v = .accepted d) :
    ∀ c ∈ d.capabilities, c.metadata.Keyed ∧ Action.ListEvery Action.Keyed c.actions := by
  obtain ⟨fs, vs, rfl, -, hcapabilities, hvs⟩ := exists_of_ofJson hd
  have hfs := Json.keyed_obj.mp h
  intro c hc
  obtain ⟨w, hw, hcw⟩ := exists_of_forall₂_right hcapabilities c hc
  rcases hvs with hvs | ⟨rfl, -⟩
  · exact Capability.keyed_of_ofJson (Json.keyed_arr.mp (hfs.of_get? hvs) w hw) hcw
  · exact absurd hw List.not_mem_nil

/-! Flows. -/

theorem keyed_of_draw {d : Document} {stem : String} {g : Graph} (h : d.draw stem = .ok g)
    (hd : ∀ c ∈ d.capabilities, c.metadata.Keyed ∧ Action.ListEvery Action.Keyed c.actions) :
    ∀ n ∈ g.nodes, n.config.Keyed := by
  intro n hn
  obtain ⟨i, hi, hnode⟩ := exists_of_forall₂_right (nodes_of_draw h) n hn
  cases i with
  | capability k c =>
    cases hnode
    exact (hd c (Document.mem_capabilities_of_item hi)).1
  | action k a spot =>
    obtain ⟨s, hs, he⟩ := Document.exists_station_of_item hi
    have hevery : d.Every Action.Keyed := fun c hc => (hd c hc).2
    have ha : a.Keyed := hevery.of_mem_stations s hs a (congrArg Prod.snd he)
    obtain ⟨shown, -, hnode⟩ := bind_eq_ok.mp hnode
    cases hnode
    exact ha.config

namespace Node

variable {n m : Node}

theorem config_of_refresh (h : n.refresh = .ok m) : m.config = n.config := by
  unfold refresh at h
  split at h
  · cases h
    rfl
  · dsimp only at h
    split at h
    · cases h
      rfl
    · obtain ⟨note, -, h⟩ := bind_eq_ok.mp h
      cases h
      rfl

/-- The configuration of a node is the object under its key, or empty. -/
theorem config_of_ofJson {origin : Origin} {v : Json} (h : ofJson origin v = .accepted n) :
    ∃ fs : Fields, v = .obj fs ∧ (fs.get? "config" = some (.obj n.config) ∨ n.config = []) := by
  unfold ofJson Read.record at h
  split at h
  · next fs =>
    refine ⟨fs, rfl, ?_⟩
    simp only [ofFields, Checked.apply_eq_accepted, Checked.map_eq_accepted] at h
    obtain ⟨_, _, ⟨_, _, ⟨_, _, ⟨_, _, ⟨_, config, ⟨_, _, ⟨_, _, ⟨_, _, rfl⟩, _, rfl⟩, _, rfl⟩,
      hconfig, rfl⟩, _, rfl⟩, _, rfl⟩, _, rfl⟩, _, rfl⟩ := h
    rcases Read.field_eq_accepted.mp hconfig with ⟨w, hw, hread⟩ | ⟨-, rfl⟩
    · cases w with
      | obj gs =>
        cases hread
        exact Or.inl hw
      | _ => cases hread
    · exact Or.inr rfl
  · cases h

theorem keyed_of_ofJson {origin : Origin} {v : Json} (hv : v.keyed = true)
    (h : ofJson origin v = .accepted n) : n.config.Keyed := by
  obtain ⟨fs, rfl, hconfig | hconfig⟩ := config_of_ofJson h
  · exact Json.keyed_obj.mp ((Json.keyed_obj.mp hv).of_get? hconfig)
  · exact hconfig ▸ Fields.keyed_nil

theorem keyed_of_create {id type : String} {position : Point} {config : Fields}
    (hconfig : config.Keyed) (h : create id type position config = .ok n) : n.config.Keyed := by
  have hblocks : ∀ b ∈ Catalog.blocks, (Json.obj b.defaults).keyed = true := by decide
  have hdefaults : (Catalog.defaults type).Keyed := by
    unfold Catalog.defaults
    cases hb : Catalog.block? type with
    | none => exact Fields.keyed_nil
    | some b => exact Json.keyed_obj.mp (hblocks b (List.mem_of_find?_eq_some hb))
  have htype : Fields.Keyed [("type", .str type)] :=
    Fields.keyed_cons.mpr ⟨fun _ hf => absurd hf List.not_mem_nil, rfl, Fields.keyed_nil⟩
  rw [config_of_refresh h]
  exact (htype.update hdefaults.values).update hconfig.values

end Node

/-- What comes in with a command are dictionaries. -/
def Command.keyed : Command → Bool
  | .addNode node => node.keyed
  | .addBlock _ _ config => (Json.obj config).keyed
  | .update _ changes => (Json.obj changes).keyed
  | .addCapability name description => name.keyed && description.keyed
  | .deleteNode _ | .connect .. | .disconnect _ | .move .. => true

def Request.keyed : Request → Bool
  | .edit c => c.keyed
  | .undo | .redo | .relayout | .save | .validate | .graph | .document => true

namespace Graph

/-- The configurations of the nodes are dictionaries. -/
def Keyed (g : Graph) : Prop := ∀ n ∈ g.nodes, n.config.Keyed

variable {g g' : Graph}

theorem Keyed.addNode (hg : g.Keyed) {n : Node} (hn : n.config.Keyed)
    (h : g.addNode n = .ok g') : g'.Keyed := by
  unfold Graph.addNode at h
  split at h
  · cases h
  · cases h
    exact List.forall_mem_append.mpr ⟨hg, List.forall_mem_singleton.mpr hn⟩

theorem Keyed.leads (hg : g.Keyed) {c : Command} (hc : c.keyed = true) {drawn : Nat}
    (h : c.Leads drawn g g') : g'.Keyed := by
  cases h with
  | addNode hn ha => exact hg.addNode (Node.keyed_of_ofJson hc hn) ha
  | addBlock _ hn ha => exact hg.addNode (Node.keyed_of_create (Json.keyed_obj.mp hc) hn) ha
  | deleteNode hd =>
    obtain ⟨-, -, hd⟩ := bind_eq_ok.mp hd
    cases hd
    exact fun n hn => hg n (List.mem_of_mem_filter hn)
  | connect _ hc =>
    obtain ⟨_, -, hc⟩ := bind_eq_ok.mp hc
    obtain ⟨_, -, hc⟩ := bind_eq_ok.mp hc
    dsimp only at hc
    split at hc
    · cases hc
    · cases hc
      exact hg
  | disconnect => exact hg
  | update hu =>
    intro m hm
    obtain ⟨n, hn, ⟨hnm, -⟩ | ⟨rfl, -⟩⟩ := of_mem_updateConfig hu hm
    · rw [Node.config_of_refresh hnm]
      exact (hg n hn).update (Json.keyed_obj.mp hc).values
    · exact hg m hn
  | move _ hmove =>
    obtain ⟨-, -, hmove⟩ := bind_eq_ok.mp hmove
    cases hmove
    intro m hm
    obtain ⟨n, hn, rfl⟩ := List.mem_map.mp hm
    split
    · exact hg n hn
    · exact hg n hn
  | addCapability ha =>
    refine hg.addNode (Json.keyed_obj.mp ?_) ha
    simpa [Node.createEntry, Command.keyed, Json.keyed, Json.keyedFields, Json.keyedItems] using hc

end Graph

namespace Session

variable {s : Session} {rs : List (Nat × Request)}

/-- The snapshots of a session over a dictionary to which only dictionaries come in. -/
theorem keyed_run (hs : ∀ g ∈ s.history.snapshots, g.Keyed) (hrs : ∀ r ∈ rs, r.2.keyed = true) :
    ∀ g ∈ (s.run rs).history.snapshots, g.Keyed := by
  refine snapshots_run_of_mem hs ?_
  intro r hr g g' hg hrecorded
  obtain ⟨edited, rfl, hedit⟩ := Request.recorded?_eq_some hrecorded
  rcases hedit with ⟨c, hc, hleads⟩ | ⟨-, rfl⟩
  · have hkeyed := hrs r hr
    rw [hc] at hkeyed
    have hedited : edited.Keyed := hg.leads hkeyed hleads
    exact hedited
  · intro m hm
    obtain ⟨n, hn, position, rfl⟩ := Graph.exists_of_mem_arrange hm
    exact hg n hn

theorem keyed_start {v : Json} {d : Document} {settings : Settings} (hv : v.keyed = true)
    (hd : Document.ofJson v = .accepted d) (h : start d settings = .ok s) :
    ∀ g ∈ s.history.snapshots, g.Keyed := by
  refine nodes_start h (fun _ _ h => h) fun g hg => ?_
  exact keyed_of_draw hg (Document.keyed_of_ofJson hv hd)

end Session

end ScriptFlow
