import ScriptFlow.Proofs.Current
import ScriptFlow.Proofs.Recovery

/-! Which requests fail in a session. An edit fails for an id that is missing or taken and for nothing
else, since what a session shows of a node can always be shown anew; saving is refused with what the
check reports. A request that fails leaves the session as it was. -/

namespace ScriptFlow

theorem map_eq_elim {α β ε : Type} {x : Except ε α} {fault? : Option ε} {a : α}
    (h : x = fault?.elim (.ok a) .error) (f : α → β) :
    f <$> x = fault?.elim (.ok (f a)) .error := by
  rw [h]
  cases fault? <;> rfl

namespace Graph

/-- The fault of the first of these ids that no node has. -/
def unknown? (g : Graph) (ids : List String) : Option Fault :=
  (ids.find? fun id => !g.hasNode id).map .unknownNode

/-- The fault of an id that a node has. -/
def taken? (g : Graph) (id : String) : Option Fault :=
  if g.hasNode id then some (.repeatedNode id) else none

variable {g : Graph} {id : String}

theorem requireNode_eq (g : Graph) (id : String) :
    g.requireNode id = (g.unknown? [id]).elim (.ok ()) .error := by
  rw [requireNode, unknown?]
  cases h : g.hasNode id <;> simp [h]

theorem exists_addNode (g : Graph) (n : Node) :
    ∃ g', g.addNode n = (g.taken? n.id).elim (.ok g') .error := by
  refine ⟨{ g with nodes := g.nodes ++ [n] }, ?_⟩
  rw [addNode, taken?]
  split <;> rfl

theorem exists_deleteNode (g : Graph) (id : String) :
    ∃ g', g.deleteNode id = (g.unknown? [id]).elim (.ok g') .error :=
  ⟨_, bind_eq_elim (g.requireNode_eq id) _⟩

theorem exists_moveNode (g : Graph) (id : String) (position : Point) :
    ∃ g', g.moveNode id position = (g.unknown? [id]).elim (.ok g') .error :=
  ⟨_, bind_eq_elim (g.requireNode_eq id) _⟩

theorem exists_connect? (g : Graph) (source target : String) (b : Branch) :
    ∃ g?, g.connect? source target b = (g.unknown? [source, target]).elim (.ok g?) .error := by
  have hfind : g.unknown? [source, target] = (g.unknown? [source]).or (g.unknown? [target]) := by
    cases h : g.hasNode source <;> simp [unknown?, h]
  rw [connect?, requireNode_eq, requireNode_eq, hfind]
  cases g.unknown? [source] with
  | some f => exact ⟨none, rfl⟩
  | none =>
    cases g.unknown? [target] with
    | some f => exact ⟨none, rfl⟩
    | none =>
      simp only [bind, Except.bind, Option.elim_none, Option.or_none]
      split
      · exact ⟨none, rfl⟩
      · exact ⟨some _, rfl⟩

/-- Nodes are refreshed whatever is written into their configuration. -/
theorem exists_updateConfig (hnotes : ∀ n ∈ g.nodes, n.isEntry = false → n.NoteShown) (id : String)
    (changes : Fields) :
    ∃ g', g.updateConfig id changes = (g.unknown? [id]).elim (.ok g') .error := by
  have hnodes : ∀ n ∈ g.nodes, ∃ m, n.amended id changes = .ok m := by
    intro n hn
    unfold Node.amended
    split
    · exact Node.exists_refresh fun hentry => hnotes n hn hentry
    · exact ⟨n, rfl⟩
  obtain ⟨nodes, hnodes⟩ := exists_forall₂ hnodes
  have hmap : g.nodes.mapM (Node.amended id changes) = .ok nodes := mapM_eq_ok.mpr hnodes
  refine ⟨{ g with nodes }, ?_⟩
  have hupdate : g.updateConfig id changes = g.requireNode id >>= fun _ =>
      g.nodes.mapM (Node.amended id changes) >>= fun nodes => .ok { g with nodes } := rfl
  rw [hupdate, hmap]
  exact bind_eq_elim (g.requireNode_eq id) fun _ => { g with nodes }

end Graph

namespace Command

/-- The node, the place and the tag that a command comes with can be read, and the type of a block
is a text. -/
def Readable : Command → Prop
  | addNode v => ∃ n, Node.ofJson .value v = .accepted n
  | addBlock type position _ => (∃ t, type = .str t) ∧ ∃ p, readPosition? position = .ok p
  | connect _ _ v => ∃ b, Branch.ofJson v = .ok b
  | move _ v => ∃ p, readPosition v = .ok p
  | deleteNode _ | disconnect _ | update .. | addCapability .. => True

/-- The fault of a command on a graph: an id that is missing, or that of a new node that is taken. -/
def fault? (g : Graph) (drawn : Nat) : Command → Option Fault
  | deleteNode id | update id _ | move id _ => g.unknown? [id]
  | connect source target _ => g.unknown? [source, target]
  | disconnect _ => none
  | addNode v =>
    match Node.ofJson .value v with
    | .accepted n => g.taken? n.id
    | .refused _ => none
  | addBlock .. => g.taken? (drawnId "node" (drawn + 1))
  | addCapability .. => g.taken? (drawnId "capability" (drawn + 1))

variable {c : Command} {g : Graph}

/-- A command whose arguments can be read succeeds unless an id is missing or taken. -/
theorem exists_run_elim (hc : c.Readable)
    (hnotes : ∀ n ∈ g.nodes, n.isEntry = false → n.NoteShown) (drawn : Nat) :
    ∃ change, (c.run g drawn).2 = (c.fault? g drawn).elim (.ok change) .error := by
  cases c with
  | addNode v =>
    obtain ⟨n, hn⟩ := hc
    obtain ⟨g', hg'⟩ := g.exists_addNode n
    refine ⟨.ofGraph g', ?_⟩
    simp only [run, fault?, hn]
    exact bind_eq_elim hg' Change.ofGraph
  | addBlock type position config =>
    obtain ⟨⟨t, rfl⟩, p, hp⟩ := hc
    obtain ⟨n, m, hid, -, hrefresh, hm⟩ :=
      Node.exists_create (drawnId "node" (drawn + 1)) t p config
    obtain ⟨g', hg'⟩ := g.exists_addNode m
    rw [Node.id_of_refresh hrefresh, hid] at hg'
    refine ⟨⟨some g', some m⟩, ?_⟩
    simp only [run, hp, dropBlock, hm]
    exact bind_eq_elim hg' fun g' => Change.mk (some g') (some m)
  | deleteNode id =>
    obtain ⟨g', hg'⟩ := g.exists_deleteNode id
    exact ⟨_, map_eq_elim hg' Change.ofGraph⟩
  | connect source target v =>
    obtain ⟨b, hb⟩ := hc
    obtain ⟨g?, hg?⟩ := g.exists_connect? source target b
    refine ⟨{ graph? := g? }, ?_⟩
    simp only [run, hb]
    exact bind_eq_elim hg? fun g? => Change.mk g? none
  | disconnect edgeId => exact ⟨_, rfl⟩
  | update id changes =>
    obtain ⟨g', hg'⟩ := g.exists_updateConfig hnotes id changes
    exact ⟨_, map_eq_elim hg' Change.ofGraph⟩
  | move id v =>
    obtain ⟨p, hp⟩ := hc
    obtain ⟨g', hg'⟩ := g.exists_moveNode id p
    refine ⟨.ofGraph g', ?_⟩
    simp only [run, hp]
    exact bind_eq_elim hg' Change.ofGraph
  | addCapability name description =>
    obtain ⟨g', hg'⟩ := g.exists_addNode
      (.createEntry (drawnId "capability" (drawn + 1)) ⟨100, g.lowest + 200⟩ name description)
    exact ⟨_, map_eq_elim hg' Change.ofGraph⟩

end Command

/-! Saving a valid flow fails only where its actions cannot be read. -/

namespace Graph

variable {g : Graph}

theorem schema_of_rebuildWith {extra : Fields} {f : Fault} (h : g.rebuildWith extra = .error f) :
    ∃ record issues, f = .schema record issues := by
  obtain ⟨cs, hcs⟩ := g.exists_capabilities_elim
  have hrebuild : g.rebuildWith extra =
      (g.entries.findSome? g.entryFault?).elim (.ok ⟨cs, extra⟩) .error :=
    map_eq_elim hcs fun capabilities => Document.mk capabilities extra
  rw [hrebuild, elim_eq_error] at h
  obtain ⟨entry, hentry, hf⟩ := List.exists_of_findSome?_eq_some h
  rcases of_entryFault? hentry hf with ⟨n, -, -, rfl⟩ | ⟨-, rfl⟩
  · exact ⟨_, _, rfl⟩
  · exact ⟨_, _, rfl⟩

/-- Saving is refused with errors if the check reports them, and with all that it reports. -/
theorem saveWith_eq_notValid {extra : Fields} {es : List FlowError} :
    g.saveWith extra = .error (.notValid es) ↔ es = g.validate ∧ es ≠ [] := by
  unfold saveWith requireValid
  cases hv : g.validate with
  | nil =>
    constructor
    · intro h
      obtain ⟨record, issues, hf⟩ := schema_of_rebuildWith h
      cases hf
    · intro h
      exact absurd h.1 h.2
  | cons e errors =>
    simp only [List.isEmpty_cons, Bool.false_eq_true, if_false, bind, Except.bind,
      Except.error.injEq, Fault.notValid.injEq]
    constructor
    · intro h
      exact ⟨h.symm, h ▸ List.cons_ne_nil _ _⟩
    · intro h
      exact h.1.symm

end Graph

namespace Session

variable {s s' : Session} {drawn : Nat} {r : Request} {f : Fault}

theorem perform_edit (s : Session) (drawn : Nat) (c : Command) :
    (s.perform drawn (.edit c)).2 =
      (fun change => (s.commitChange change, replyTo change)) <$> (c.run s.graph drawn).2 := by
  simp only [perform, edit]
  cases (c.run s.graph drawn).2 <;> rfl

theorem perform_save (s : Session) (drawn : Nat) : (s.perform drawn .save).2 =
    (fun d => ({ s with document := d, savedDigest := s.graph.digest }, .saved d)) <$>
      s.graph.saveWith s.document.extra := by
  simp only [perform, save]
  cases s.graph.saveWith s.document.extra <;> rfl

/-- A request that fails leaves the session as it was. -/
theorem next_of_error (h : (s.perform drawn r).2 = .error f) : s.next drawn r = s := by
  rw [next, h]

/-- Only edits and saving can fail. -/
theorem edit_or_save_of_error (h : (s.perform drawn r).2 = .error f) :
    (∃ c, r = .edit c) ∨ r = .save := by
  cases r with
  | edit c => exact Or.inl ⟨c, rfl⟩
  | save => exact Or.inr rfl
  | _ => cases h

/-- The document that is given as saved is that of the session. -/
theorem document_of_saved {d : Document} (h : (s.perform drawn r).2 = .ok (s', .saved d)) :
    s'.document = d := by
  cases r with
  | edit c =>
    rw [perform_edit] at h
    obtain ⟨change, -, hreply⟩ := bind_eq_ok.mp h
    have hsaved : replyTo change = .saved d := congrArg Prod.snd (Except.ok.inj hreply)
    unfold replyTo at hsaved
    split at hsaved
    · cases hsaved
    · cases hsaved
  | save =>
    rw [perform_save] at h
    obtain ⟨d', -, hreply⟩ := bind_eq_ok.mp h
    cases hreply
    rfl
  | _ => cases h

theorem document_of_mem_trace {d : Document} {rs : List Request}
    (h : (s', .ok (.saved d)) ∈ s.trace drawn rs) : s'.document = d := by
  induction rs generalizing s drawn with
  | nil => exact absurd h List.not_mem_nil
  | cons r rs ih =>
    rw [trace] at h
    split at h
    · next drawn' s₁ reply hr =>
      rcases List.mem_cons.mp h with heq | h
      · cases heq
        exact document_of_saved (congrArg Prod.snd hr)
      · exact ih h
    · rcases List.mem_cons.mp h with heq | h
      · cases heq
      · exact ih h

section

variable {s₀ : Session} {d : Document} {settings : Settings} {rs : List (Nat × Request)}

theorem noteShown_run (h : start d settings = .ok s₀)
    (hrs : ∀ r ∈ rs, ∀ v, r.2 ≠ .edit (.addNode v)) :
    ∀ n ∈ (s₀.run rs).graph.nodes, n.isEntry = false → n.NoteShown :=
  fun n hn hentry => (current_run hrs (current_start h) _
    (s₀.run rs).history.current_mem_snapshots n hn hentry).noteShown

/-- In a session that no node was added to as given, an edit whose arguments can be read fails for an
id that is missing or taken and for nothing else, saving is refused with errors if and only if the
check reports them, and no other request fails. Whatever fails leaves the session as it was. What is
saved over a run has the other keys of the document that was read. -/
theorem fails_exactly {fs : Fields} (hd : Document.ofJson (.obj fs) = .accepted d)
    (h : start d settings = .ok s₀) (hrs : ∀ r ∈ rs, ∀ v, r.2 ≠ .edit (.addNode v)) :
    (∀ drawn c f, c.Readable → (((s₀.run rs).perform drawn (.edit c)).2 = .error f ↔
        c.fault? (s₀.run rs).graph drawn = some f)) ∧
      (∀ drawn es, ((s₀.run rs).perform drawn .save).2 = .error (.notValid es) ↔
        es = (s₀.run rs).graph.validate ∧ es ≠ []) ∧
      (∀ drawn r f, ((s₀.run rs).perform drawn r).2 = .error f →
        ((∃ c, r = .edit c) ∨ r = .save) ∧ (s₀.run rs).next drawn r = s₀.run rs) ∧
      ∀ drawn requests s' saved, (s', .ok (.saved saved)) ∈ s₀.trace drawn requests →
        ∃ capabilities, saved.toJson =
          .obj (fs.without ["capabilities"] ++ [("capabilities", capabilities)]) := by
  refine ⟨?_, ?_, ?_, ?_⟩
  · intro drawn c f hc
    obtain ⟨change, hchange⟩ := Command.exists_run_elim hc (noteShown_run h hrs) drawn
    rw [perform_edit, map_eq_elim hchange]
    exact elim_eq_error
  · intro drawn es
    rw [perform_save, ← Graph.saveWith_eq_notValid]
    cases (s₀.run rs).graph.saveWith (s₀.run rs).document.extra <;> simp [Functor.map, Except.map]
  · intro drawn r f hf
    exact ⟨edit_or_save_of_error hf, next_of_error hf⟩
  · intro drawn requests s' saved hs
    obtain ⟨qs, -, hrun⟩ := exists_run_of_mem_trace hs
    have hrun : s' = s₀.run qs := hrun
    obtain ⟨⟨fs', hfs, hextra⟩, -⟩ := Document.of_ofJson hd
    cases hfs
    have hdocument : s₀.document = d := by
      obtain ⟨g, -, h⟩ := bind_eq_ok.mp h
      cases h
      rfl
    have hkept : saved.extra = Fields.without fs ["capabilities"] := by
      rw [← document_of_mem_trace hs, hrun, extra_run, hdocument, hextra]
    exact ⟨_, by rw [Document.toJson, hkept]⟩

/-- The sample with a key of its own. -/
def versioned : Document := { Document.sample with extra := [("version", .int 2)] }

/-- A node that was never there cannot be deleted. -/
theorem fails_exactly_versioned :
    Document.ofJson versioned.toJson = .accepted versioned ∧
      ∃ s, start versioned {} = .ok s ∧
        ((s.run touches).perform 2 (.edit (.deleteNode "gone"))).2 =
          .error (.unknownNode "gone") := by
  have hd : Document.ofJson versioned.toJson = .accepted versioned := rfl
  have hrs : ∀ r ∈ touches, ∀ v, r.2 ≠ .edit (.addNode v) := by simp [touches]
  obtain ⟨s, hs⟩ : ∃ s, start versioned {} = .ok s := ⟨_, rfl⟩
  refine ⟨hd, s, hs, ((fails_exactly hd hs hrs).1 2 (.deleteNode "gone") _ trivial).mpr ?_⟩
  cases hs
  rfl

end

end Session

end ScriptFlow
