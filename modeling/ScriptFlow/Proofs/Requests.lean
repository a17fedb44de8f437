import ScriptFlow.Proofs.Contribution
import ScriptFlow.Session.Run

/-! What a request does to a session, said once for all commands, and the session after a run of
requests. A request that fails leaves the session as it was. Ids of new nodes are drawn for each
request anew, so a run says of each of its requests how many were drawn before it. -/

namespace ScriptFlow

/-- The command leads from the graph `g` to another one after `drawn` draws. -/
inductive Command.Leads (drawn : Nat) (g : Graph) : Command → Graph → Prop
  | addNode {v : Json} {n : Node} {g' : Graph} : Node.ofJson .value v = .accepted n →
      g.addNode n = .ok g' → Leads drawn g (.addNode v) g'
  | addBlock {type : String} {position : Option Json} {config : Fields} {p : Point} {n : Node}
      {g' : Graph} : readPosition? position = .ok p →
      Node.create (drawnId "node" (drawn + 1)) type p config = .ok n → g.addNode n = .ok g' →
      Leads drawn g (.addBlock (.str type) position config) g'
  | deleteNode {id : String} {g' : Graph} : g.deleteNode id = .ok g' →
      Leads drawn g (.deleteNode id) g'
  | connect {source target : String} {v : Json} {b : Branch} {g' : Graph} :
      Branch.ofJson v = .ok b → g.connect? source target b = .ok (some g') →
      Leads drawn g (.connect source target v) g'
  | disconnect {edgeId : String} : Leads drawn g (.disconnect edgeId) (g.disconnect edgeId)
  | update {id : String} {changes : Fields} {g' : Graph} : g.updateConfig id changes = .ok g' →
      Leads drawn g (.update id changes) g'
  | move {id : String} {v : Json} {p : Point} {g' : Graph} : readPosition v = .ok p →
      g.moveNode id p = .ok g' → Leads drawn g (.move id v) g'
  | addCapability {name description : Json} {g' : Graph} :
      g.addCapability (drawnId "capability" (drawn + 1)) name description = .ok g' →
      Leads drawn g (.addCapability name description) g'

namespace Command

theorem map_ofGraph_eq_ok {x : Except Fault Graph} {change : Change} {g' : Graph}
    (h : Change.ofGraph <$> x = .ok change) (hg : change.graph? = some g') : x = .ok g' := by
  cases x with
  | error f => cases h
  | ok g =>
    cases h
    exact congrArg Except.ok (Option.some.inj hg)

/-- A command that changes the graph leads to the changed one. -/
theorem leads_of_run {c : Command} {g g' : Graph} {drawn : Nat} {change : Change}
    (h : (c.run g drawn).2 = .ok change) (hg : change.graph? = some g') : c.Leads drawn g g' := by
  cases c with
  | addNode v =>
    obtain ⟨n, hn, h⟩ := bind_eq_ok.mp h
    obtain ⟨g₁, hadd, h⟩ := bind_eq_ok.mp h
    cases h
    cases hg
    exact .addNode (Checked.orFault_eq_ok.mp hn) hadd
  | addBlock type position config =>
    simp only [run] at h
    cases hp : readPosition? position with
    | error f =>
      rw [hp] at h
      cases h
    | ok p =>
      rw [hp] at h
      cases type with
      | str type =>
        obtain ⟨n, hn, h⟩ := bind_eq_ok.mp h
        obtain ⟨g₁, hadd, h⟩ := bind_eq_ok.mp h
        cases h
        cases hg
        exact .addBlock hp hn hadd
      | _ => cases h
  | deleteNode id => exact .deleteNode (map_ofGraph_eq_ok h hg)
  | connect source target branch =>
    obtain ⟨b, hb, h⟩ := bind_eq_ok.mp h
    obtain ⟨g?, hc, h⟩ := bind_eq_ok.mp h
    cases h
    exact .connect hb (hg ▸ hc)
  | disconnect edgeId =>
    cases h
    cases hg
    exact .disconnect
  | update id changes => exact .update (map_ofGraph_eq_ok h hg)
  | move id position =>
    obtain ⟨p, hp, h⟩ := bind_eq_ok.mp h
    obtain ⟨g₁, hmove, h⟩ := bind_eq_ok.mp h
    cases h
    cases hg
    exact .move hp hmove
  | addCapability name description => exact .addCapability (map_ofGraph_eq_ok h hg)

end Command

namespace Request

/-- The graph that a request records in the history of a session whose graph is `g`, if any: an
edited graph gets its data edges computed afresh. -/
def recorded? (settings : Settings) (drawn : Nat) (g : Graph) : Request → Option Graph
  | .edit c =>
    match (c.run g drawn).2 with
    | .ok change => change.graph?.map fun g' => g'.stripDataEdges.annotate
    | .error _ => none
  | .relayout => some (g.arrange settings).stripDataEdges.annotate
  | .undo | .redo | .save | .validate | .graph | .document => none

/-- What is recorded comes from a command or from a new layout. -/
theorem recorded?_eq_some {settings : Settings} {drawn : Nat} {g g' : Graph} {r : Request}
    (h : r.recorded? settings drawn g = some g') : ∃ edited : Graph,
      g' = edited.stripDataEdges.annotate ∧
        ((∃ c, r = .edit c ∧ c.Leads drawn g edited) ∨
          r = .relayout ∧ edited = g.arrange settings) := by
  cases r with
  | edit c =>
    simp only [recorded?] at h
    cases hrun : (c.run g drawn).2 with
    | error f =>
      rw [hrun] at h
      cases h
    | ok change =>
      rw [hrun] at h
      obtain ⟨edited, hg, rfl⟩ := Option.map_eq_some_iff.mp h
      exact ⟨edited, rfl, Or.inl ⟨c, rfl, Command.leads_of_run hrun hg⟩⟩
  | relayout =>
    cases h
    exact ⟨_, rfl, Or.inr ⟨rfl, rfl⟩⟩
  | _ => cases h

end Request

/-- Records a snapshot if there is one. -/
def History.recordAny {α : Type} (limit : Nat) (h : History α) : Option α → History α
  | some a => h.record limit a
  | none => h

namespace History

variable {α : Type}

theorem current_mem_snapshots (h : History α) : h.current ∈ h.snapshots :=
  List.get_mem _ _

theorem mem_snapshots_record {limit : Nat} {h : History α} {a b : α}
    (hb : b ∈ (h.record limit a).snapshots) : b ∈ h.snapshots ∨ b = a := by
  rcases List.mem_append.mp (List.mem_of_mem_drop hb) with hb | hb
  · exact Or.inl (List.mem_of_mem_take hb)
  · exact Or.inr (List.mem_singleton.mp hb)

theorem snapshots_redo (h : History α) : h.redo.snapshots = h.snapshots := by
  unfold redo
  split <;> rfl

end History

namespace Request

/-- Whether a request goes through the history. -/
def isShift : Request → Bool
  | .undo | .redo => true
  | _ => false

/-- What a request makes of the history of a session. -/
def onHistory (settings : Settings) (drawn : Nat) (h : History Graph) (r : Request) :
    History Graph :=
  match r with
  | .undo => h.undo
  | .redo => h.redo
  | r => h.recordAny settings.historyLimit (r.recorded? settings drawn h.current)

/-- A request adds no other snapshot than the one that it records. -/
theorem mem_snapshots_onHistory {settings : Settings} {drawn : Nat} {h : History Graph}
    {r : Request} {g : Graph} (hg : g ∈ (r.onHistory settings drawn h).snapshots) :
    g ∈ h.snapshots ∨ r.recorded? settings drawn h.current = some g := by
  have hany : ∀ {a? : Option Graph}, g ∈ (h.recordAny settings.historyLimit a?).snapshots →
      g ∈ h.snapshots ∨ a? = some g := by
    intro a? ha
    cases a? with
    | none => exact Or.inl ha
    | some a => exact (History.mem_snapshots_record ha).imp_right fun he => congrArg some he.symm
  cases r with
  | undo => exact Or.inl hg
  | redo => exact Or.inl (h.snapshots_redo ▸ hg)
  | _ => exact hany hg

end Request

namespace Session

/-- The session after a request; a request that fails leaves it as it was. -/
def next (s : Session) (drawn : Nat) (r : Request) : Session :=
  match (s.perform drawn r).2 with
  | .ok (s', _) => s'
  | .error _ => s

/-- The session after requests, each with the count of draws before it. -/
def run (s : Session) (rs : List (Nat × Request)) : Session :=
  rs.foldl (fun s r => s.next r.1 r.2) s

theorem run_cons (s : Session) (r : Nat × Request) (rs : List (Nat × Request)) :
    s.run (r :: rs) = (s.next r.1 r.2).run rs := rfl

/-- The sessions of a trace are those after the first requests. -/
theorem exists_run_of_mem_trace {s : Session} {drawn : Nat} {rs : List Request}
    {p : Session × Except Fault Reply} (h : p ∈ s.trace drawn rs) :
    ∃ qs : List (Nat × Request), qs.map Prod.snd <+: rs ∧ p.1 = s.run qs := by
  induction rs generalizing s drawn with
  | nil => exact absurd h List.not_mem_nil
  | cons r rs ih =>
    have hnext : ∀ {s' : Session} {drawn' : Nat}, s' = s.next drawn r →
        p ∈ s'.trace drawn' rs → ∃ qs : List (Nat × Request),
          qs.map Prod.snd <+: r :: rs ∧ p.1 = s.run qs := by
      intro s' drawn' hs hp
      obtain ⟨qs, hqs, hrun⟩ := ih hp
      refine ⟨(drawn, r) :: qs, (List.prefix_cons_inj r).mpr hqs, ?_⟩
      rw [run_cons, ← hs]
      exact hrun
    have hone : s.next drawn r = s.run [(drawn, r)] := rfl
    rw [trace] at h
    split at h
    · next drawn' s' reply hr =>
      have hs : s' = s.next drawn r := by rw [next, hr]
      rcases List.mem_cons.mp h with rfl | h
      · exact ⟨[(drawn, r)], by simp, hs.trans hone⟩
      · exact hnext hs h
    · next drawn' f hr =>
      have hs : s = s.next drawn r := by rw [next, hr]
      rcases List.mem_cons.mp h with rfl | h
      · exact ⟨[(drawn, r)], by simp, hs.trans hone⟩
      · exact hnext hs h

section

variable (s : Session) (drawn : Nat) (r : Request)

/-- A request changes the history of the session, or it saves and changes the document. -/
theorem next_cases :
    s.next drawn r = { s with history := r.onHistory s.settings drawn s.history } ∨
      ∃ d, r = .save ∧ s.graph.saveWith s.document.extra = .ok d ∧
        s.next drawn r = { s with document := d, savedDigest := s.graph.digest } := by
  cases r with
  | edit c =>
    refine Or.inl ?_
    simp only [next, perform, edit, Request.onHistory, Request.recorded?, graph]
    cases (c.run s.history.current drawn).2 with
    | error f => rfl
    | ok change =>
      simp only [Except.map, commitChange]
      cases change.graph? <;> rfl
  | save =>
    cases hd : s.graph.saveWith s.document.extra with
    | error f =>
      refine Or.inl ?_
      simp only [next, perform, save, hd]
      rfl
    | ok d =>
      refine Or.inr ⟨d, rfl, rfl, ?_⟩
      simp only [next, perform, save, hd]
      rfl
  | _ => exact Or.inl rfl

theorem history_next :
    (s.next drawn r).history = r.onHistory s.settings drawn s.history := by
  rcases s.next_cases drawn r with h | ⟨d, rfl, -, h⟩
  · rw [h]
  · rw [h]
    rfl

theorem settings_next : (s.next drawn r).settings = s.settings := by
  rcases s.next_cases drawn r with h | ⟨d, -, -, h⟩
  · rw [h]
  · rw [h]

/-- Saving keeps the other keys of the document. -/
theorem extra_next : (s.next drawn r).document.extra = s.document.extra := by
  rcases s.next_cases drawn r with h | ⟨d, -, hd, h⟩
  · rw [h]
  · rw [h]
    exact (Graph.saveWith_eq_ok.mp hd).2.2

end

theorem extra_run (s : Session) (rs : List (Nat × Request)) :
    (s.run rs).document.extra = s.document.extra := by
  induction rs generalizing s with
  | nil => rfl
  | cons r rs ih => rw [run_cons, ih, extra_next]

theorem settings_run (s : Session) (rs : List (Nat × Request)) :
    (s.run rs).settings = s.settings := by
  induction rs generalizing s with
  | nil => rfl
  | cons r rs ih => rw [run_cons, ih, settings_next]

/-- What holds of every snapshot, and of what one of the requests records after a graph that it holds
of, holds of every snapshot after the requests. -/
theorem snapshots_run_of_mem {P : Graph → Prop} {s : Session} {rs : List (Nat × Request)}
    (hs : ∀ g ∈ s.history.snapshots, P g)
    (hstep : ∀ r ∈ rs, ∀ {g g'}, P g → Request.recorded? s.settings r.1 g r.2 = some g' → P g') :
    ∀ g ∈ (s.run rs).history.snapshots, P g := by
  induction rs generalizing s with
  | nil => exact hs
  | cons r rs ih =>
    rw [run_cons]
    refine ih ?_ ?_
    · intro g hg
      rw [history_next] at hg
      rcases Request.mem_snapshots_onHistory hg with hg | hg
      · exact hs g hg
      · exact hstep r List.mem_cons_self (hs _ s.history.current_mem_snapshots) hg
    · rw [settings_next]
      exact fun r hr => hstep r (List.mem_cons_of_mem _ hr)

/-- What holds of every snapshot, and of what is recorded after a graph that it holds of, holds of
every snapshot after any requests. -/
theorem snapshots_run {P : Graph → Prop} {s : Session} (hs : ∀ g ∈ s.history.snapshots, P g)
    (hstep : ∀ {drawn r g g'}, P g → Request.recorded? s.settings drawn g r = some g' → P g')
    (rs : List (Nat × Request)) : ∀ g ∈ (s.run rs).history.snapshots, P g :=
  snapshots_run_of_mem hs fun _ _ => hstep

end Session

end ScriptFlow
