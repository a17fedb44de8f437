import ScriptFlow.Proofs.Fingerprint
import ScriptFlow.Proofs.Reordering

/-! What is saved of flows that the text under the digest does not tell apart. In the text the keys of
every configuration are sorted, and so are the edges. What is read back of both flows differs at most
in the order of keys, unless two edges leave a node with one tag, of which the first one is followed,
or what is saved of the notes and labels that are shown differs. -/

namespace ScriptFlow

/-- Both succeed, with results between which `R` holds, or both fail. -/
inductive Together {ε α β : Type} (R : α → β → Prop) : Except ε α → Except ε β → Prop
  | ok {a : α} {b : β} : R a b → Together R (.ok a) (.ok b)
  | error (e e' : ε) : Together R (.error e) (.error e')

namespace Together

variable {ε α α' β β' : Type} {R : α → β → Prop} {S : α' → β' → Prop} {x : Except ε α}
  {y : Except ε β}

theorem refl (x : Except ε α) : Together (· = ·) x x := by
  cases x with
  | error e => exact .error e e
  | ok a => exact .ok rfl

theorem of_ok (h : ∀ a, x = .ok a → ∃ b, y = .ok b ∧ R a b)
    (h' : ∀ b, y = .ok b → ∃ a, x = .ok a) : Together R x y := by
  cases x with
  | error e =>
    cases y with
    | error e' => exact .error e e'
    | ok b =>
      obtain ⟨a, ha⟩ := h' b rfl
      cases ha
  | ok a =>
    obtain ⟨b, rfl, hab⟩ := h a rfl
    exact .ok hab

theorem map {f : α → α'} {k : β → β'} (h : Together R x y) (hf : ∀ a b, R a b → S (f a) (k b)) :
    Together S (x.map f) (y.map k) := by
  cases h with
  | ok hab => exact .ok (hf _ _ hab)
  | error e e' => exact .error e e'

theorem bind {f : α → Except ε α'} {k : β → Except ε β'} (h : Together R x y)
    (hf : ∀ a b, R a b → Together S (f a) (k b)) : Together S (x >>= f) (y >>= k) := by
  cases h with
  | ok hab => exact hf _ _ hab
  | error e e' => exact .error e e'

theorem mapM {xs : List α} {ys : List β} {f : α → Except ε α'} {k : β → Except ε β'}
    (h : List.Forall₂ (fun a b => Together S (f a) (k b)) xs ys) :
    Together (List.Forall₂ S) (xs.mapM f) (ys.mapM k) := by
  induction h with
  | nil => exact .ok .nil
  | cons hab _ ih =>
    rw [List.mapM_cons, List.mapM_cons]
    exact hab.bind fun a b h => ih.bind fun as bs hs => .ok (.cons h hs)

end Together

/-! Actions, capabilities and documents that are written alike. -/

/-- The actions are written with the same keys. -/
def Action.WrittenAlike (a b : Action) : Prop := a.toJson.Alike b.toJson

def Capability.WrittenAlike (c d : Capability) : Prop := c.toJson.Alike d.toJson

def Document.WrittenAlike (d e : Document) : Prop := d.toJson.Alike e.toJson

theorem Action.alike_listToJson {as bs : List Action} (h : List.Forall₂ WrittenAlike as bs) :
    (Json.arr (listToJson as)).Alike (.arr (listToJson bs)) := by
  have hall : List.Forall₂ Json.Alike (listToJson as) (listToJson bs) := by
    induction h with
    | nil => exact .nil
    | cons hab _ ih => exact .cons hab ih
  exact .of_forall₂ hall

namespace Capability

variable {fs gs : Fields} {as bs : List Action} {c : Capability}

theorem readText_alike {v w : Json} (h : v.Alike w) {t : Option String}
    (hv : readText v = .accepted t) : readText w = .accepted t := by
  cases h with
  | refl => exact hv
  | arr => cases hv
  | obj => cases hv

theorem field_readText_alike (h : fs.Alike gs) {key : String} {t : Option String}
    (ht : Read.field fs key none readText = .accepted t) :
    Read.field gs key none readText = .accepted t := by
  have hkey := h.get? key
  rw [Read.field_eq_accepted] at ht ⊢
  rcases ht with ⟨v, hv, hread⟩ | ⟨hnone, ht⟩
  · rw [hv] at hkey
    generalize hw : gs.get? key = w? at hkey
    cases hkey with
    | some hvw => exact Or.inl ⟨_, rfl, readText_alike hvw hread⟩
  · rw [hnone] at hkey
    generalize gs.get? key = w? at hkey
    cases hkey
    exact Or.inr ⟨rfl, ht⟩

theorem readParameters_arr (vs : List Json) : readParameters (.arr vs) = .accepted (some vs) := by
  have hlist : Read.list .accepted (.arr vs) = .accepted vs := by
    simpa using @Read.list_map Json .accepted id vs fun _ _ => rfl
  simp only [readParameters, hlist, Checked.map]

theorem exists_field_readParameters_alike (h : fs.Alike gs) {ps : Option (List Json)}
    (hps : Read.field fs "parameters" none readParameters = .accepted ps) :
    ∃ qs, Read.field gs "parameters" none readParameters = .accepted qs ∧
      Option.Rel Json.Alike (ps.map .arr) (qs.map .arr) := by
  have hkey := h.get? "parameters"
  simp only [Read.field_eq_accepted] at hps ⊢
  rcases hps with ⟨v, hv, hread⟩ | ⟨hnone, rfl⟩
  · rw [hv] at hkey
    generalize gs.get? "parameters" = w? at hkey ⊢
    cases hkey with
    | @some _ w hvw =>
      cases hvw with
      | refl => exact ⟨ps, Or.inl ⟨v, rfl, hread⟩, Json.Alike.rel_refl _⟩
      | @arr _ ws length items =>
        rw [readParameters_arr] at hread
        cases hread
        exact ⟨some ws, Or.inl ⟨_, rfl, readParameters_arr ws⟩, .some (.arr length items)⟩
      | obj => cases hread
  · rw [hnone] at hkey
    generalize gs.get? "parameters" = w? at hkey ⊢
    cases hkey
    exact ⟨none, Or.inr ⟨rfl, rfl⟩, .none⟩

/-- The order of keys tells neither whether a capability is read nor how it is written. -/
theorem exists_ofFieldsWith_alike (h : fs.Alike gs)
    (hactions : List.Forall₂ Action.WrittenAlike as bs) (hc : ofFieldsWith fs as = .accepted c) :
    ∃ d, ofFieldsWith gs bs = .accepted d ∧ c.WrittenAlike d := by
  obtain ⟨name, description, parameters, trigger, extra, actions⟩ := c
  obtain ⟨⟨hname, hdescription, hparameters⟩, htrigger, hextra, hlist⟩ :=
    ofFieldsWith_eq_accepted.mp hc
  dsimp only at hname hdescription hparameters htrigger hextra hlist
  subst htrigger hextra hlist
  obtain ⟨qs, hqs, hwritten⟩ := exists_field_readParameters_alike h hparameters
  refine ⟨⟨name, description, qs, gs.get? "trigger", gs.without knownKeys, bs⟩,
    ofFieldsWith_eq_accepted.mpr ⟨⟨field_readText_alike h hname,
      field_readText_alike h hdescription, hqs⟩, rfl, rfl, rfl⟩, ?_⟩
  have hmetadata := ((((Fields.Alike.refl (optionalField "name" (name.map .str))).append
    (.refl (optionalField "description" (description.map .str)))).append
    (.optionalField hwritten "parameters")).append
    (.optionalField (h.get? "trigger") "trigger")).append (h.without knownKeys)
  exact hmetadata.append (.single (Action.alike_listToJson hactions) "actions")

end Capability

/-! Nodes. -/

/-- What is saved of the things that two nodes show is the same: the note, or the label of an
entry. -/
structure Node.ShownAlike (n m : Node) : Prop where
  note : n.kind ≠ .entry → Note.storable? (n.presentation.value "note") =
    Note.storable? (m.presentation.value "note")
  label : n.kind = .entry → n.presentation.value "label" = m.presentation.value "label"

theorem Node.ShownAlike.savedAlike {n m : Node} (h : n.ShownAlike m) (hs : n.summary = m.summary) :
    n.SavedAlike m := by
  obtain ⟨hid, hkind, htype, hconfig⟩ := summary_inj hs
  refine ⟨hid, hkind, htype, fun hne => ?_, fun hentry => ?_⟩
  · simp only [savedConfig, htype, hconfig, h.note hne]
  · simp only [Graph.capabilityFields, hconfig, h.label hentry]

/-- What is read back of two nodes is written alike. -/
structure Node.WrittenAlike (n m : Node) : Prop where
  id : n.id = m.id
  kind : n.kind = m.kind
  actionType : n.actionType = m.actionType
  config : n.kind ≠ .entry → n.savedConfig.Alike m.savedConfig
  fields : n.kind = .entry → (Graph.capabilityFields n).Alike (Graph.capabilityFields m)

theorem holdsNote_alike {fs gs : Fields} (h : fs.Alike gs) (hfs : fs.Keyed) (hgs : gs.Keyed)
    (payload : Fields) : holdsNote fs payload = holdsNote gs payload := by
  have hnote := h.value noteKey
  have hfs := hfs.value noteKey
  have hgs := hgs.value noteKey
  unfold holdsNote
  generalize fs.value noteKey = v at hnote hfs ⊢
  generalize gs.value noteKey = w at hnote hgs ⊢
  cases hnote with
  | refl => rfl
  | arr => rfl
  | @obj fs gs keys values =>
    have hstored : Fields.Alike fs gs := .obj keys values
    rw [Json.keyed_obj] at hfs hgs
    have hsame : ∀ key u, (fs.value key).same u = (gs.value key).same u := fun key =>
      (hstored.value key).same_eq (hfs.value key) (hgs.value key)
    simp only [hsame]

theorem Node.keyed_typed {n : Node} (h : n.config.Keyed) : (n.config.set "type" n.tag).Keyed := by
  refine h.set ?_
  rw [tag]
  split
  · cases hv : n.config.get? "type" with
    | none => rfl
    | some v => exact h.of_get? hv
  · rfl

namespace Node.StateAlike

variable {n m : Node}

theorem tag (h : n.StateAlike m) : n.tag.Alike m.tag := by
  have hconfig : n.config.Alike m.config := h.config
  have hkey := hconfig.get? "type"
  rw [Node.tag, Node.tag, h.actionType]
  generalize n.config.get? "type" = v? at hkey ⊢
  generalize m.config.get? "type" = w? at hkey ⊢
  split
  · cases hkey with
    | none => exact .refl _
    | some hvw => exact hvw
  · exact .refl _

theorem savedConfig (h : n.StateAlike m) (hn : n.config.Keyed) (hm : m.config.Keyed)
    (hnote : Note.storable? (n.presentation.value "note") =
      Note.storable? (m.presentation.value "note")) : n.savedConfig.Alike m.savedConfig := by
  have hconfig : n.config.Alike m.config := h.config
  have htyped := hconfig.set h.tag "type"
  have hholds := holdsNote_alike htyped (keyed_typed hn) (keyed_typed hm)
  unfold Node.savedConfig
  dsimp only
  rw [← Node.tag, ← Node.tag, hnote]
  cases Note.storable? (m.presentation.value "note") with
  | none => exact htyped
  | some payload =>
    dsimp only
    rw [hholds payload]
    split
    · exact htyped
    · exact htyped.set (.refl _) _

theorem capabilityFields (h : n.StateAlike m)
    (hlabel : n.presentation.value "label" = m.presentation.value "label") :
    (Graph.capabilityFields n).Alike (Graph.capabilityFields m) := by
  have hconfig : n.config.Alike m.config := h.config
  simp only [Graph.capabilityFields, hlabel, (hconfig.value "name").truthy_eq]
  split
  · exact hconfig.set (.refl _) _
  · exact hconfig

theorem writtenAlike (h : n.StateAlike m) (hn : n.config.Keyed) (hm : m.config.Keyed)
    (hshown : n.ShownAlike m) : n.WrittenAlike m where
  id := h.id
  kind := h.kind
  actionType := h.actionType
  config hkind := h.savedConfig hn hm (hshown.note hkind)
  fields hkind := h.capabilityFields (hshown.label hkind)

theorem fieldErrors_eq (h : n.StateAlike m) : n.fieldErrors = m.fieldErrors := by
  have hmissing : ∀ r : RequiredField, r.isMissing n.config = r.isMissing m.config := fun r =>
    r.isMissing_alike h.config
  simp only [Node.fieldErrors, h.id, h.actionType, hmissing]

end Node.StateAlike

namespace Node.WrittenAlike

variable {n m : Node} {ts es ts' es' : List Action}

theorem isEntry (h : n.WrittenAlike m) : n.isEntry = m.isEntry := by
  rw [Node.isEntry, Node.isEntry, h.kind]

theorem leaf (h : n.WrittenAlike m) (hkind : n.kind ≠ .entry) :
    Together Action.WrittenAlike n.leaf m.leaf := by
  have hconfig := h.config hkind
  have htype := hconfig.value "type"
  unfold Node.leaf
  generalize n.savedConfig.value "type" = v at htype ⊢
  generalize m.savedConfig.value "type" = w at htype ⊢
  cases htype with
  | refl =>
    cases v with
    | str type => exact .ok ((hconfig.without ["type"]).cons (.refl _) "type")
    | _ => exact .error _ _
  | arr => exact .error _ _
  | obj => exact .error _ _

theorem branch (h : n.WrittenAlike m) (hkind : n.kind ≠ .entry)
    (ht : List.Forall₂ Action.WrittenAlike ts ts') (he : List.Forall₂ Action.WrittenAlike es es') :
    (n.branch ts es).WrittenAlike (m.branch ts' es') := by
  have hconfig := h.config hkind
  have hbodies := (Fields.Alike.single (Action.alike_listToJson he) "else").cons
    (Action.alike_listToJson ht) "then"
  exact (((Fields.Alike.optionalField (hconfig.get? "condition") "condition").append
    (hconfig.without _)).append hbodies).cons (.refl _) "type"

theorem loop (h : n.WrittenAlike m) (hkind : n.kind ≠ .entry)
    (hbody : List.Forall₂ Action.WrittenAlike ts ts') :
    (n.loop ts).WrittenAlike (m.loop ts') := by
  have hconfig := h.config hkind
  have hbodies := Fields.Alike.single (Action.alike_listToJson hbody) "do"
  have hhead : ∀ key key', (optionalField key (n.savedConfig.get? key) ++
      optionalField key' (n.savedConfig.get? key')).Alike
        (optionalField key (m.savedConfig.get? key) ++
          optionalField key' (m.savedConfig.get? key')) := fun key key' =>
    (Fields.Alike.optionalField (hconfig.get? key) key).append
      (.optionalField (hconfig.get? key') key')
  simp only [Node.loop, h.actionType]
  split
  · exact (((hhead _ _).append (hconfig.without _)).append hbodies).cons (.refl _) "type"
  · exact (((hhead _ _).append (hconfig.without _)).append hbodies).cons (.refl _) "type"

end Node.WrittenAlike

namespace Visit

mutual
theorem toAction_together {v w : Visit} : v.Matches Node.WrittenAlike w →
    Together Action.WrittenAlike v.toAction w.toAction
  | .plain hkind _ h => h.leaf (by simp [hkind])
  | .fork hkind _ h hthen helse => by
    simp only [toAction]
    exact (listToActions_together hthen).bind fun _ _ ht => (listToActions_together helse).bind
      fun _ _ he => .ok (h.branch (by simp [hkind]) ht he)
  | .loop hkind _ h hbody => by
    simp only [toAction]
    exact (listToActions_together hbody).bind fun _ _ hb => .ok (h.loop (by simp [hkind]) hb)

theorem listToActions_together {vs ws : List Visit} : ListMatches Node.WrittenAlike vs ws →
    Together (List.Forall₂ Action.WrittenAlike) (listToActions vs) (listToActions ws)
  | .nil => .ok .nil
  | .cons h hs => by
    simp only [listToActions]
    exact (toAction_together h).bind fun _ _ ha => (listToActions_together hs).bind
      fun _ _ has => .ok (.cons ha has)
end

end Visit

/-! Flows. -/

namespace Graph

variable {g g' : Graph}

/-- What is read back of two flows is written alike. -/
structure WrittenAlike (g g' : Graph) : Prop where
  nodes : List.Forall₂ Node.WrittenAlike g.nodes g'.nodes
  target? : ∀ id b, g.target? id b = g'.target? id b

namespace WrittenAlike

theorem capability (h : g.WrittenAlike g') {n m : Node} (hnm : n.WrittenAlike m)
    (hentry : n.kind = .entry) :
    Together Capability.WrittenAlike (g.capability n) (g'.capability m) := by
  have hwalk : Visit.ListMatches Node.WrittenAlike (g.walkFrom n) (g'.walkFrom m) := by
    rw [walkFrom, walkFrom, ← hnm.id, ← h.target?]
    exact walk_matches h.nodes (fun _ _ hnm => ⟨hnm.id, hnm.kind⟩) (fun n _ b _ => h.target? n.id b)
      _ _ _
  have hfields := hnm.fields hentry
  refine (Visit.listToActions_together hwalk).bind fun as bs hactions => .of_ok ?_ ?_
  · intro c hc
    obtain ⟨d, hd, halike⟩ :=
      Capability.exists_ofFieldsWith_alike hfields hactions (Checked.orFault_eq_ok.mp hc)
    exact ⟨d, Checked.orFault_eq_ok.mpr hd, halike⟩
  · intro d hd
    have hactions' : List.Forall₂ Action.WrittenAlike bs as :=
      hactions.flip.imp fun _ _ hab => hab.symm
    obtain ⟨c, hc, -⟩ := Capability.exists_ofFieldsWith_alike hfields.symm hactions'
      (Checked.orFault_eq_ok.mp hd)
    exact ⟨c, Checked.orFault_eq_ok.mpr hc⟩

theorem capabilities (h : g.WrittenAlike g') :
    Together (List.Forall₂ Capability.WrittenAlike) g.capabilities g'.capabilities := by
  have hentries : List.Forall₂ Node.WrittenAlike g.entries g'.entries :=
    List.rel_filter (fun _ _ hnm => Bool.eq_iff_iff.mp hnm.isEntry) h.nodes
  refine .mapM (List.Forall₂.imp ?_ ((List.forall₂_and_left _ _).mpr
    ⟨fun n hn => hn, hentries⟩))
  intro n m hnm
  exact h.capability hnm.2 (beq_iff_eq.mp (List.mem_filter.mp hnm.1).2)

theorem document {cs ds : List Capability} (h : List.Forall₂ Capability.WrittenAlike cs ds)
    (extra : Fields) : Document.WrittenAlike ⟨cs, extra⟩ ⟨ds, extra⟩ := by
  have hcapabilities : (Json.arr (cs.map Capability.toJson)).Alike
      (.arr (ds.map Capability.toJson)) :=
    .of_forall₂ (List.forall₂_map_left_iff.mpr (List.forall₂_map_right_iff.mpr h))
  exact (Fields.Alike.refl extra).append (.single hcapabilities "capabilities")

theorem rebuildWith (h : g.WrittenAlike g') (extra : Fields) :
    Together Document.WrittenAlike (g.rebuildWith extra) (g'.rebuildWith extra) :=
  h.capabilities.map fun _ _ hcs => document hcs extra

theorem rebuild (h : g.WrittenAlike g') (base : Json) :
    Together Document.WrittenAlike (g.rebuild base) (g'.rebuild base) := by
  refine h.capabilities.bind fun cs ds hcs => (Together.refl (documentExtra base)).bind ?_
  rintro extra _ rfl
  exact .ok (document hcs extra)

end WrittenAlike

/-- Whether a flow is without errors is not told by their order. -/
theorem requireValid_of_perm (h : g.validate.Perm g'.validate) :
    Together (· = ·) g.requireValid g'.requireValid := by
  have hempty : g.validate.isEmpty = g'.validate.isEmpty := isEmpty_eq_of_length_eq h.length_eq
  rw [requireValid, requireValid, hempty]
  split
  · exact .ok rfl
  · exact .error _ _

namespace WrittenAlike

theorem saveWith (h : g.WrittenAlike g') (hvalidate : g.validate.Perm g'.validate) (extra : Fields) :
    Together Document.WrittenAlike (g.saveWith extra) (g'.saveWith extra) :=
  (requireValid_of_perm hvalidate).bind fun _ _ _ => h.rebuildWith extra

theorem save (h : g.WrittenAlike g') (hvalidate : g.validate.Perm g'.validate) (base : Json) :
    Together Document.WrittenAlike (g.save base) (g'.save base) :=
  (requireValid_of_perm hvalidate).bind fun _ _ _ => h.rebuild base

end WrittenAlike

/-- Flows with one summary are read back alike if what is saved of the things that they show is the
same and no two edges leave a node with one tag. -/
theorem savedAlike_of_summary (h : g.summary = g'.summary)
    (hports : (g.structuralEdges.map fun e => (e.source, e.branch)).Nodup)
    (hshown : List.Forall₂ Node.ShownAlike g.nodes g'.nodes) : g.SavedAlike g' where
  nodes := (forall₂_and hshown (summary_eq_iff.mp h).1).imp fun _ _ hnm => hnm.1.savedAlike hnm.2
  target? := target?_of_summaries (summary_eq_iff.mp h).2 hports

theorem validate_perm_of_summary (h : g.summary = g'.summary) : g.validate.Perm g'.validate := by
  obtain ⟨hnodes, hedges⟩ := summary_eq_iff.mp h
  refine validate_perm (hnodes.imp fun n m hnm => Node.checkedAlike_of_core ?_) hedges
  obtain ⟨hid, hkind, htype, hconfig⟩ := Node.summary_inj hnm
  rw [Node.core, Node.core, hid, hkind, htype, hconfig]

theorem StateAlike.summaries (h : g.StateAlike g') :
    (g.edges.map Edge.summary).Perm (g'.edges.map Edge.summary) :=
  perm_map_of_perm_map (fun _ _ => Edge.summary_eq_iff_state.mpr) h.edges

theorem StateAlike.validate_perm (h : g.StateAlike g') : g.validate.Perm g'.validate :=
  Graph.validate_perm (h.nodes.imp fun _ _ hnm => ⟨hnm.id, hnm.kind, hnm.fieldErrors_eq⟩) h.summaries

/-- What is read back of flows whose digested text is the same is written alike, if what is saved of
the things that they show is the same and no two edges leave a node with one tag. -/
theorem StateAlike.writtenAlike (h : g.StateAlike g') (hg : g.Keyed) (hg' : g'.Keyed)
    (hports : (g.structuralEdges.map fun e => (e.source, e.branch)).Nodup)
    (hshown : List.Forall₂ Node.ShownAlike g.nodes g'.nodes) : g.WrittenAlike g' where
  nodes := by
    have hleft := (List.forall₂_and_left _ _).mpr ⟨hg, forall₂_and hshown h.nodes⟩
    have hboth := ((List.forall₂_and_left _ _).mpr ⟨hg', hleft.flip⟩).flip
    exact hboth.imp fun n m ⟨hm, hn, hnm, hstate⟩ => hstate.writtenAlike hn hm hnm
  target? := target?_of_summaries h.summaries hports

/-- Flows with one summary, and flows whose summaries have one canonical text, have the same errors.
The same is saved of them, whatever the document they were drawn from, if no two edges leave a node
with one tag and the notes that are saved and the labels of entries are the same: with one summary
the same documents, and with one text documents in which at most the order of keys differs. -/
theorem saved_of_summary (hports : (g.structuralEdges.map fun e => (e.source, e.branch)).Nodup)
    (hshown : List.Forall₂ Node.ShownAlike g.nodes g'.nodes) :
    (g.summary = g'.summary →
      g.validate.Perm g'.validate ∧ (∀ base, g.rebuild base = g'.rebuild base) ∧
        (∀ extra, g.rebuildWith extra = g'.rebuildWith extra) ∧
        (∀ base d, g.save base = .ok d ↔ g'.save base = .ok d) ∧
        ∀ extra d, g.saveWith extra = .ok d ↔ g'.saveWith extra = .ok d) ∧
    (g.Keyed → g'.Keyed → g.summary.canonicalChars = g'.summary.canonicalChars →
      g.validate.Perm g'.validate ∧
        (∀ base, Together Document.WrittenAlike (g.rebuild base) (g'.rebuild base)) ∧
        (∀ extra, Together Document.WrittenAlike (g.rebuildWith extra) (g'.rebuildWith extra)) ∧
        (∀ base, Together Document.WrittenAlike (g.save base) (g'.save base)) ∧
        ∀ extra, Together Document.WrittenAlike (g.saveWith extra) (g'.saveWith extra)) := by
  refine ⟨fun h => ?_, fun hg hg' h => ?_⟩
  · have hvalidate := validate_perm_of_summary h
    have halike := savedAlike_of_summary h hports hshown
    have hwith : ∀ extra d, g.saveWith extra = .ok d ↔ g'.saveWith extra = .ok d := by
      intro extra d
      rw [saveWith_eq_ok, saveWith_eq_ok, ← capabilities_eq_ok, ← capabilities_eq_ok,
        halike.capabilities_eq, ← List.perm_nil, hvalidate.congr_left, List.perm_nil]
    refine ⟨hvalidate, halike.rebuild_eq, halike.rebuildWith_eq, fun base d => ?_, hwith⟩
    simp only [save_eq_ok, hwith]
  · have hstate := (canonicalChars_summary_eq_iff hg hg').mp h
    have hvalidate := hstate.validate_perm
    have halike := hstate.writtenAlike hg hg' hports hshown
    exact ⟨hvalidate, halike.rebuild, halike.rebuildWith, halike.save hvalidate,
      halike.saveWith hvalidate⟩

/-- The configurations and the edges in the opposite order. -/
def backwards (g : Graph) : Graph :=
  ⟨g.nodes.map fun n => { n with config := n.config.reverse }, g.edges.reverse⟩

theorem Keyed.backwards (h : g.Keyed) : g.backwards.Keyed := by
  intro m hm
  obtain ⟨n, hn, rfl⟩ := List.mem_map.mp hm
  have hperm := List.reverse_perm n.config
  exact ⟨(hperm.map Prod.fst).nodup_iff.mpr (h n hn).keys,
    fun f hf => (h n hn).values f (hperm.mem_iff.mp hf)⟩

theorem stateAlike_backwards (h : g.Keyed) : g.StateAlike g.backwards where
  nodes := List.forall₂_map_right_iff.mpr (List.forall₂_same.mpr fun n hn =>
    ⟨rfl, rfl, rfl, Fields.alike_of_perm (h n hn).keys (List.reverse_perm _).symm, rfl⟩)
  edges := (List.reverse_perm _).symm.map _

theorem saved_of_summary_sample : ∃ g g' : Graph, Document.sample.draw defaultStem = .ok g ∧
    g' = ⟨g.nodes, g.edges.reverse⟩ ∧ g.summary = g'.summary ∧
    (g.validate.Perm g'.validate ∧ (∀ base, g.rebuild base = g'.rebuild base) ∧
      (∀ extra, g.rebuildWith extra = g'.rebuildWith extra) ∧
      (∀ base d, g.save base = .ok d ↔ g'.save base = .ok d) ∧
      ∀ extra d, g.saveWith extra = .ok d ↔ g'.saveWith extra = .ok d) ∧
    g.Keyed ∧ g.backwards.Keyed ∧
    g.summary.canonicalChars = g.backwards.summary.canonicalChars ∧
    g.validate.Perm g.backwards.validate ∧
      (∀ base, Together Document.WrittenAlike (g.rebuild base) (g.backwards.rebuild base)) ∧
      (∀ extra,
        Together Document.WrittenAlike (g.rebuildWith extra) (g.backwards.rebuildWith extra)) ∧
      (∀ base, Together Document.WrittenAlike (g.save base) (g.backwards.save base)) ∧
      ∀ extra, Together Document.WrittenAlike (g.saveWith extra) (g.backwards.saveWith extra) := by
  obtain ⟨g, hg⟩ : ∃ g, Document.sample.draw defaultStem = .ok g := ⟨_, rfl⟩
  have hports := nodup_ways_of_draw hg
  have hsummary : g.summary = Graph.summary ⟨g.nodes, g.edges.reverse⟩ :=
    summary_eq_iff.mpr
      ⟨List.forall₂_same.mpr fun _ _ => rfl, (List.reverse_perm g.edges).symm.map _⟩
  have hread : Document.ofJson Document.sample.toJson = .accepted .sample := rfl
  have hkeyed : g.Keyed := keyed_of_draw hg (Document.keyed_of_ofJson (by decide) hread)
  have htext := (canonicalChars_summary_eq_iff hkeyed hkeyed.backwards).mpr
    (stateAlike_backwards hkeyed)
  have hshown : List.Forall₂ Node.ShownAlike g.nodes g.backwards.nodes :=
    List.forall₂_map_right_iff.mpr (List.forall₂_same.mpr fun _ _ => ⟨fun _ => rfl, fun _ => rfl⟩)
  have hsame := @saved_of_summary g ⟨g.nodes, g.edges.reverse⟩ hports
    (List.forall₂_same.mpr fun _ _ => ⟨fun _ => rfl, fun _ => rfl⟩)
  exact ⟨g, _, hg, rfl, hsummary, hsame.1 hsummary, hkeyed, hkeyed.backwards, htext,
    (saved_of_summary hports hshown).2 hkeyed hkeyed.backwards htext⟩

end Graph

end ScriptFlow
