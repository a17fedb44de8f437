import ScriptFlow.Proofs.Connecting
import ScriptFlow.Proofs.Current
import ScriptFlow.Proofs.Relayout
import ScriptFlow.Proofs.Zipper

/-! Edits that change nothing. A connection that is refused leaves a session as it was. Any other
edit is recorded, also if the graph that it leads to is the current one: what was undone is gone, and
one more place of the history is taken, until all of them hold the current graph. -/

namespace ScriptFlow

namespace Request

/-- The graph that an edit leads to, recorded or not, with its data edges computed afresh. -/
def outcome? (settings : Settings) (drawn : Nat) (g : Graph) : Request → Option Graph
  | .edit c =>
    match (c.run g drawn).2 with
    | .ok change => some (change.graph g).stripDataEdges.annotate
    | .error _ => none
  | .relayout => some (g.arrange settings).stripDataEdges.annotate
  | .undo | .redo | .save | .validate | .graph | .document => none

/-- The request is an edit that leads to the graph that is there. -/
def Idle (settings : Settings) (drawn : Nat) (g : Graph) (r : Request) : Prop :=
  r.outcome? settings drawn g = some g

/-- A connection of a node with itself, or one whose edge has the id of an edge. -/
inductive Refused (g : Graph) : Request → Prop
  | connect {source target : String} {v : Json} {b : Branch} : Branch.ofJson v = .ok b →
      g.hasNode source → g.hasNode target →
      (source = target ∨ ∃ e ∈ g.edges, e.id = Edge.structuralId source target b) →
      Refused g (.edit (.connect source target v))

/-- Edits that ask for what is there. -/
inductive Vain (settings : Settings) (g : Graph) : Request → Prop
  | connect {r : Request} : r.Refused g → Vain settings g r
  /-- An id of no edge, or of edges that are computed afresh. -/
  | disconnect {id : String} : (∀ e ∈ g.structuralEdges, e.id ≠ id) →
      Vain settings g (.edit (.disconnect id))
  | update {id : String} {changes : Fields} : g.hasNode id →
      (∀ n ∈ g.nodes, n.id = id → n.isEntry = false ∧ n.Current ∧
        ∀ c ∈ changes, n.config.get? c.1 = some c.2) →
      Vain settings g (.edit (.update id changes))
  | move {id : String} {v : Json} {p : Point} : Command.readPosition v = .ok p → g.hasNode id →
      (∀ n ∈ g.nodes, n.id = id → n.position = p) → Vain settings g (.edit (.move id v))
  | relayout : g.arrange settings = g → Vain settings g .relayout

end Request

/-- Nothing can be redone, no place is free, and the current snapshot is in all of them. -/
structure History.Saturated {α : Type} (limit : Nat) (h : History α) : Prop where
  last : h.canRedo = false
  full : h.size = max limit 1
  same : ∀ a ∈ h.snapshots, a = h.current

/-! Recording the current snapshot once more. -/

namespace History

variable {α : Type}

/-- A list that moves up by one place and stays the same has one member only. -/
theorem tail_append_eq_self {l : List α} {a : α} :
    (l ++ [a]).tail = l ↔ ∀ b ∈ l, b = a := by
  induction l with
  | nil => simp
  | cons b l ih =>
    cases l with
    | nil => simp [eq_comm]
    | cons c l =>
      rw [List.cons_append, List.tail_cons, List.cons_append, List.cons.injEq]
      rw [List.cons_append, List.tail_cons] at ih
      rw [ih]
      constructor
      · rintro ⟨rfl, hall⟩ x hx
        rcases List.mem_cons.mp hx with rfl | hx
        · exact hall x List.mem_cons_self
        · exact hall x hx
      · intro hall
        have hc : ∀ x ∈ c :: l, x = a := fun x hx => hall x (List.mem_cons_of_mem _ hx)
        exact ⟨(hc c List.mem_cons_self).trans (hall b List.mem_cons_self).symm, hc⟩

theorem canRedo_record (limit : Nat) (h : History α) (a : α) :
    (h.record limit a).canRedo = false := by
  rw [canRedo_zipper, zipper_record]
  rfl

theorem canUndo_record (limit : Nat) (h : History α) (a : α) :
    (h.record limit a).canUndo = true ↔ 1 < limit := by
  have hsize := size_record limit h a
  have hcursor : (h.record limit a).cursor = (h.record limit a).size - 1 := rfl
  rw [canUndo, decide_eq_true_iff]
  omega

theorem ext_iff {h h' : History α} :
    h = h' ↔ h.snapshots = h'.snapshots ∧ h.cursor = h'.cursor := by
  obtain ⟨snapshots, cursor, hc⟩ := h
  obtain ⟨snapshots', cursor', hc'⟩ := h'
  exact History.mk.injEq .. ▸ Iff.rfl

theorem canRedo_eq_false {h : History α} : h.canRedo = false ↔ h.size = h.cursor + 1 := by
  have hc : h.cursor < h.size := h.cursor_lt
  rw [canRedo, decide_eq_false_iff_not]
  omega

/-- A snapshot of a full history that is recorded moves the others up by one place. -/
theorem snapshots_record_of_full {limit : Nat} {h : History α} (hlast : h.canRedo = false)
    (hfull : h.size = max limit 1) (a : α) :
    (h.record limit a).snapshots = (h.snapshots ++ [a]).tail := by
  have hend : h.snapshots.length = h.cursor + 1 := canRedo_eq_false.mp hlast
  have hextended : h.extended a = h.snapshots ++ [a] := by
    rw [extended, List.take_of_length_le hend.le]
  have hdrop : (h.snapshots ++ [a]).length - max limit 1 = 1 := by
    rw [List.length_append, List.length_singleton, ← hfull, size, Nat.add_sub_cancel_left]
  calc (h.record limit a).snapshots
      = (h.snapshots ++ [a]).drop ((h.snapshots ++ [a]).length - max limit 1) := by
        rw [← hextended]
        rfl
    _ = (h.snapshots ++ [a]).tail := by rw [hdrop, List.drop_one]

/-- Recording the current snapshot leaves no trace in a saturated history only. -/
theorem record_current_eq_iff {limit : Nat} {h : History α} (hs : h.size ≤ max limit 1) :
    h.record limit h.current = h ↔ h.Saturated limit := by
  have hsize := size_record limit h h.current
  have hcursor : (h.record limit h.current).cursor = (h.record limit h.current).size - 1 := rfl
  constructor
  · intro heq
    have hlast : h.canRedo = false := heq ▸ canRedo_record limit h h.current
    have hend := canRedo_eq_false.mp hlast
    have hfull : h.size = max limit 1 := by
      rw [heq] at hsize
      omega
    refine ⟨hlast, hfull, tail_append_eq_self.mp ?_⟩
    rw [← snapshots_record_of_full hlast hfull, heq]
  · intro hsat
    have hend := canRedo_eq_false.mp hsat.last
    have hfull := hsat.full
    refine ext_iff.mpr ⟨?_, by omega⟩
    rw [snapshots_record_of_full hsat.last hsat.full, tail_append_eq_self.mpr hsat.same]

end History

/-! What an idle edit records. -/

namespace Graph

variable {g : Graph} {source target : String} {b : Branch}

theorem connect?_eq_none : g.connect? source target b = .ok none ↔
    g.hasNode source ∧ g.hasNode target ∧
      (source = target ∨ ∃ e ∈ g.edges, e.id = Edge.structuralId source target b) := by
  have hany : g.edges.any (·.id == (Edge.structural source target b).id) = true ↔
      ∃ e ∈ g.edges, e.id = Edge.structuralId source target b := by
    simp [Edge.structural]
  unfold connect? requireNode
  by_cases hs : g.hasNode source
  · by_cases ht : g.hasNode target
    · simp only [bind, Except.bind, hs, ht, if_true, true_and, ← hany]
      split <;> simp_all
    · simp [bind, Except.bind, hs, ht]
  · simp [bind, Except.bind, hs]

end Graph

namespace Request

variable {settings : Settings} {drawn : Nat} {g g' : Graph} {r : Request}

theorem graph?_ofGraph {x : Except Fault Graph} {change : Change}
    (h : Change.ofGraph <$> x = .ok change) : change.graph? ≠ none := by
  cases x with
  | error f => cases h
  | ok g =>
    cases h
    exact Option.some_ne_none g

/-- A command that succeeds and gives no graph is a connection that is refused. -/
theorem refused_of_run {c : Command} {change : Change} (h : (c.run g drawn).2 = .ok change)
    (hnone : change.graph? = none) : Refused g (.edit c) := by
  cases c with
  | connect source target v =>
    obtain ⟨b, hb, h⟩ := bind_eq_ok.mp h
    obtain ⟨g?, hc, h⟩ := bind_eq_ok.mp h
    cases h
    cases hnone
    obtain ⟨hs, ht, hsame⟩ := Graph.connect?_eq_none.mp hc
    exact .connect hb hs ht hsame
  | addNode v =>
    obtain ⟨n, -, h⟩ := bind_eq_ok.mp h
    obtain ⟨g₁, -, h⟩ := bind_eq_ok.mp h
    cases h
    cases hnone
  | addBlock type position config =>
    simp only [Command.run] at h
    cases hp : Command.readPosition? position with
    | error f =>
      rw [hp] at h
      cases h
    | ok p =>
      rw [hp] at h
      cases type with
      | str type =>
        obtain ⟨n, -, h⟩ := bind_eq_ok.mp h
        obtain ⟨g₁, -, h⟩ := bind_eq_ok.mp h
        cases h
        cases hnone
      | _ => cases h
  | disconnect id =>
    cases h
    cases hnone
  | move id v =>
    obtain ⟨p, -, h⟩ := bind_eq_ok.mp h
    obtain ⟨g₁, -, h⟩ := bind_eq_ok.mp h
    cases h
    cases hnone
  | _ => exact absurd hnone (graph?_ofGraph h)

theorem Refused.run {c : Command} (h : Refused g (.edit c)) :
    (c.run g drawn).2 = .ok { graph? := none } := by
  obtain ⟨hb, hs, ht, hsame⟩ := h
  refine bind_eq_ok.mpr ⟨_, hb, bind_eq_ok.mpr ⟨_, ?_, rfl⟩⟩
  exact Graph.connect?_eq_none.mpr ⟨hs, ht, hsame⟩

theorem outcome?_of_run {c : Command} {change : Change} (h : (c.run g drawn).2 = .ok change) :
    (Request.edit c).outcome? settings drawn g =
      some (change.graph g).stripDataEdges.annotate := by
  simp only [outcome?, h]

theorem recorded?_of_run {c : Command} {change : Change} (h : (c.run g drawn).2 = .ok change) :
    (Request.edit c).recorded? settings drawn g =
      change.graph?.map fun edited => edited.stripDataEdges.annotate := by
  simp only [recorded?, h]

/-- An edit is refused, or what it leads to is recorded. -/
theorem recorded?_of_outcome (h : r.outcome? settings drawn g = some g') :
    (r.Refused g ∧ r.recorded? settings drawn g = none) ∨
      (¬ r.Refused g ∧ r.recorded? settings drawn g = some g') := by
  cases r with
  | relayout =>
    refine Or.inr ⟨?_, h⟩
    rintro ⟨⟩
  | edit c =>
    cases hrun : (c.run g drawn).2 with
    | error f =>
      simp only [outcome?, hrun] at h
      cases h
    | ok change =>
      rw [outcome?_of_run hrun] at h
      rw [recorded?_of_run hrun]
      cases hg : change.graph? with
      | none => exact Or.inl ⟨refused_of_run hrun hg, rfl⟩
      | some edited =>
        have hgraph : change.graph g = edited := congrArg (Option.getD · g) hg
        refine Or.inr ⟨fun hr => ?_, hgraph ▸ h⟩
        cases hrun.symm.trans hr.run
        cases hg
  | _ => cases h

end Request

/-! Edits that ask for what is there are idle. -/

namespace Fields

theorem set_of_get? {fs : Fields} {k : String} {v : Json} (h : fs.get? k = some v) :
    fs.set k v = fs := by
  induction fs with
  | nil => cases h
  | cons f fs ih =>
    rw [get?_cons] at h
    unfold set
    by_cases hk : k = f.1
    · rw [if_pos hk] at h
      cases h
      rw [if_pos hk.symm, hk]
    · rw [if_neg hk] at h
      rw [if_neg (Ne.symm hk), ih h]

theorem update_of_get? {fs changes : Fields} (h : ∀ c ∈ changes, fs.get? c.1 = some c.2) :
    fs.update changes = fs := by
  induction changes with
  | nil => rfl
  | cons c changes ih =>
    have hset : fs.set c.1 c.2 = fs := set_of_get? (h c List.mem_cons_self)
    rw [update, List.foldl_cons, hset]
    exact ih fun c' hc' => h c' (List.mem_cons_of_mem _ hc')

end Fields

/-- A node that shows what it is stays as it is when it is refreshed. -/
theorem Node.Current.refresh_eq {n : Node} (hn : n.isEntry = false) (h : n.Current) :
    n.refresh = .ok n := by
  have hlabel := Fields.set_of_get? h.label
  cases hv : n.presentation.get? "note" with
  | none =>
    have hnote : Note.refresh? (n.presentation.value "note") n.config = none := by
      rw [Fields.value, hv]
      rfl
    rw [refresh_of_none hn hlabel hnote, ← h.inputs, ← h.outputs]
  | some v =>
    obtain ⟨note, hc, rfl⟩ := Note.shows_iff.mp (h.note v hv)
    have hnote : Note.refresh? (n.presentation.value "note") n.config =
        some (.accepted (note.shown n.config)) := by
      rw [Fields.value, hv]
      exact Note.refresh?_shown hc n.config n.config
    rw [refresh_of_some hn hlabel hnote, ← h.inputs, ← h.outputs, Fields.set_of_get? hv]

namespace Graph

variable {g g' : Graph}

/-- A graph whose data edges are computed of its nodes is what is recorded of its nodes and its
structural edges. -/
theorem stripDataEdges_annotate (hg : g.edges = g.structuralEdges ++ inferDataEdges g.nodes [])
    (hnodes : g'.nodes = g.nodes) (hedges : g'.structuralEdges = g.structuralEdges) :
    g'.stripDataEdges.annotate = g := by
  have hinferred : inferDataEdges g'.nodes g'.structuralEdges = inferDataEdges g.nodes [] := by
    have hdata : g'.structuralEdges.filter (·.isData) = [] := g'.dataEdges_stripDataEdges
    rw [inferDataEdges_eq hdata, hnodes]
  obtain ⟨nodes, edges⟩ := g
  rw [annotate, stripDataEdges, hinferred, hedges, ← hg, hnodes]

theorem updateConfig_of_held {id : String} {changes : Fields} (hid : g.hasNode id)
    (h : ∀ n ∈ g.nodes, n.id = id → n.isEntry = false ∧ n.Current ∧
      ∀ c ∈ changes, n.config.get? c.1 = some c.2) :
    g.updateConfig id changes = .ok g := by
  have hnodes : g.nodes.mapM (fun n =>
      if n.id = id then { n with config := n.config.update changes : Node }.refresh else .ok n) =
        .ok g.nodes := by
    refine mapM_eq_ok.mpr (List.forall₂_same.mpr fun n hn => ?_)
    split
    · next hnid =>
      obtain ⟨hentry, hcurrent, hheld⟩ := h n hn hnid
      rw [Fields.update_of_get? hheld]
      exact hcurrent.refresh_eq hentry
    · rfl
  rw [updateConfig, requireNode_eq_ok hid, hnodes]
  rfl

theorem moveNode_of_there {id : String} {p : Point} (hid : g.hasNode id)
    (h : ∀ n ∈ g.nodes, n.id = id → n.position = p) : g.moveNode id p = .ok g := by
  have hnodes : g.nodes.map (fun n => if n.id = id then { n with position := p } else n) =
      g.nodes := by
    refine (List.map_congr_left fun n hn => ?_).trans (List.map_id _)
    split
    · next hnid => rw [← h n hn hnid]; rfl
    · rfl
  rw [moveNode, requireNode_eq_ok hid, hnodes]
  rfl

theorem structuralEdges_disconnect {id : String} (h : ∀ e ∈ g.structuralEdges, e.id ≠ id) :
    (g.disconnect id).structuralEdges = g.structuralEdges := by
  rw [structuralEdges, disconnect, List.filter_filter, List.filter_congr fun e _ => Bool.and_comm ..,
    ← List.filter_filter]
  exact List.filter_eq_self.mpr fun e he => bne_iff_ne.mpr (h e he)

end Graph

namespace Request

variable {settings : Settings} {drawn : Nat} {g g' : Graph} {r : Request}

theorem Vain.idle (hg : g.edges = g.structuralEdges ++ inferDataEdges g.nodes [])
    (h : r.Vain settings g) : r.Idle settings drawn g := by
  have hsame : g.stripDataEdges.annotate = g := Graph.stripDataEdges_annotate hg rfl rfl
  cases h with
  | connect h =>
    obtain ⟨hb, hs, ht, hx⟩ := h
    exact (outcome?_of_run (Refused.connect hb hs ht hx).run).trans (congrArg some hsame)
  | disconnect h =>
    exact congrArg some
      (Graph.stripDataEdges_annotate hg rfl (Graph.structuralEdges_disconnect h))
  | @update id changes hid h =>
    have hrun : ((Command.update id changes).run g drawn).2 = .ok (.ofGraph g) :=
      congrArg (Change.ofGraph <$> ·) (Graph.updateConfig_of_held hid h)
    exact (outcome?_of_run hrun).trans (congrArg some hsame)
  | @move id v p hp hid h =>
    have hrun : ((Command.move id v).run g drawn).2 = .ok (.ofGraph g) :=
      bind_eq_ok.mpr ⟨p, hp, bind_eq_ok.mpr ⟨g, Graph.moveNode_of_there hid h, rfl⟩⟩
    exact (outcome?_of_run hrun).trans (congrArg some hsame)
  | relayout h => rw [Idle, outcome?, h, hsame]

end Request

namespace Session

variable {d : Document} {settings : Settings} {s : Session}

/-- An edit that is recorded is recorded after the current graph. -/
theorem history_next_of_recorded {drawn : Nat} {r : Request} {g : Graph}
    (h : r.recorded? s.settings drawn s.graph = some g) :
    (s.next drawn r).history = s.history.record s.settings.historyLimit g := by
  have hany : s.history.recordAny s.settings.historyLimit
      (r.recorded? s.settings drawn s.history.current) =
        s.history.record s.settings.historyLimit g :=
    congrArg (s.history.recordAny _) h
  rw [history_next]
  cases r with
  | edit c => exact hany
  | relayout => exact hany
  | _ => cases h

/-- An edit that is refused leaves everything as it is. -/
theorem next_of_refused {drawn : Nat} {r : Request} (h : r.Refused s.graph) :
    s.next drawn r = s := by
  obtain ⟨hb, hs, ht, hx⟩ := h
  rw [next_edit (Request.Refused.connect hb hs ht hx).run]
  rfl

/-- An edit of a session that leads to the graph that is there, with its data edges computed afresh,
leaves the history as it is if and only if it is a connection that is refused, or else the current
graph is all that the history has and can hold. In any other case it is recorded, and nothing can be
redone. Asking to cut an edge that is not there, to write what is written, to move a node to where
it is, and for a new layout of a flow that is laid out are such edits. -/
theorem history_next_of_idle (h : start d settings = .ok s) (rs : List (Nat × Request))
    (drawn : Nat) (r : Request) :
    (r.Vain settings (s.run rs).graph → r.Idle settings drawn (s.run rs).graph) ∧
    (r.Idle settings drawn (s.run rs).graph →
      ((s.run rs).next drawn r).graph = (s.run rs).graph ∧
      (r.Refused (s.run rs).graph → (s.run rs).next drawn r = s.run rs) ∧
      (¬ r.Refused (s.run rs).graph →
        ((s.run rs).next drawn r).history.zipper =
          (s.run rs).history.zipper.record settings.historyLimit (s.run rs).graph ∧
        ((s.run rs).next drawn r).history.canRedo = false ∧
        (((s.run rs).next drawn r).history.canUndo = true ↔ 1 < settings.historyLimit)) ∧
      (((s.run rs).next drawn r).history = (s.run rs).history ↔
        r.Refused (s.run rs).graph ∨ (s.run rs).history.Saturated settings.historyLimit)) := by
  obtain ⟨hsettings, hsize⟩ : s.settings = settings ∧
      s.history.size ≤ max settings.historyLimit 1 := by
    obtain ⟨g, hg, h⟩ := bind_eq_ok.mp h
    cases h
    exact ⟨rfl, Nat.le_max_right _ _⟩
  have hrun : (s.run rs).settings = settings := (s.settings_run rs).trans hsettings
  have hsize' : (s.run rs).history.size ≤ max settings.historyLimit 1 := by
    subst hsettings
    exact size_run hsize rs
  have hedges := edges_run (edges_start h) (s.run rs).graph
    (s.run rs).history.current_mem_snapshots
  generalize s.run rs = t at *
  subst hrun
  refine ⟨fun hv => hv.idle hedges, fun hidle => ?_⟩
  rcases Request.recorded?_of_outcome hidle with ⟨hrefused, -⟩ | ⟨hnot, hrecorded⟩
  · have hnext : t.next drawn r = t := next_of_refused hrefused
    exact ⟨congrArg graph hnext, fun _ => hnext, fun hnot => absurd hrefused hnot,
      iff_of_true (congrArg history hnext) (Or.inl hrefused)⟩
  · have hnext := history_next_of_recorded hrecorded
    refine ⟨?_, fun hr => absurd hr hnot, fun _ => ⟨?_, ?_, ?_⟩, ?_⟩
    · rw [graph, hnext, History.current_record]
    · rw [hnext, History.zipper_record]
    · rw [hnext, History.canRedo_record]
    · rw [hnext, History.canUndo_record]
    · rw [hnext, or_iff_right hnot]
      exact History.record_current_eq_iff hsize'

/-- A new session is laid out. -/
theorem arrange_start (h : start d settings = .ok s) : s.graph.arrange settings = s.graph := by
  obtain ⟨loaded, hload, h⟩ := bind_eq_ok.mp h
  cases h
  obtain ⟨g, -, hload⟩ := bind_eq_ok.mp hload
  cases hload
  have halike := g.laidAlike_layout settings.geometry settings.layoutSweeps
  refine Graph.layout_eq_self (h := g) ⟨halike.nodes, ?_⟩ rfl
  exact (congrArg (List.map _) (g.arrange settings).structuralEdges_annotate).trans halike.edges

/-- A new layout of a new session can be undone. -/
theorem history_next_of_idle_relayout : ∃ s, start Document.sample {} = .ok s ∧
    Request.Idle {} 0 s.graph .relayout ∧ (s.next 0 .relayout).graph = s.graph ∧
    s.history.canUndo = false ∧ (s.next 0 .relayout).history.canUndo = true := by
  obtain ⟨s, hs⟩ : ∃ s, start Document.sample {} = .ok s := ⟨_, rfl⟩
  obtain ⟨hvain, hidle⟩ := history_next_of_idle hs [] 0 .relayout
  have hrelayout := hvain (.relayout (arrange_start hs))
  obtain ⟨hgraph, -, hrecorded, -⟩ := hidle hrelayout
  have hundo := (hrecorded (by rintro ⟨⟩)).2.2.mpr (by decide)
  refine ⟨s, hs, hrelayout, hgraph, ?_, hundo⟩
  cases hs
  rfl

/-- A pause is moved and the move is undone. -/
def moved : List (Nat × Request) :=
  [(0, .edit (.move "node_2" (.obj [("x", .float 1), ("y", .float 1)]))), (0, .undo)]

/-- After an edge that is not there is cut, the move cannot be redone. -/
theorem not_redone_moved : ∃ s, start (Document.pauses [1]) {} = .ok s ∧
    Request.Idle {} 0 (s.run moved).graph (.edit (.disconnect "nothing")) ∧
    (s.run moved).history.canRedo = true ∧ (s.run moved).history.canUndo = false ∧
    ((s.run moved).next 0 (.edit (.disconnect "nothing"))).graph = (s.run moved).graph ∧
    ((s.run moved).next 0 (.edit (.disconnect "nothing"))).history.canRedo = false ∧
    ((s.run moved).next 0 (.edit (.disconnect "nothing"))).history.canUndo = true := by
  obtain ⟨s, hs⟩ : ∃ s, start (Document.pauses [1]) {} = .ok s := ⟨_, rfl⟩
  obtain ⟨hsettings, hstart, hedges⟩ : s.settings = {} ∧ s.history = .start s.graph ∧
      s.graph.structuralEdges = [.structural "node_1" "node_2" .none] := by
    cases hs
    exact ⟨rfl, rfl, Graph.structuralEdges_annotate _⟩
  have hpresent : ∀ e ∈ s.graph.structuralEdges, e.id ≠ "nothing" := hedges ▸ by decide
  obtain ⟨g, hg⟩ : ∃ g, Request.recorded? s.settings 0 s.graph moved[0].2 = some g := by
    cases hs
    exact ⟨_, rfl⟩
  have hmoved : (s.run moved).history = ((History.start s.graph).record
      (Settings.historyLimit {}) g).undo := by
    have hnext := history_next_of_recorded hg
    rw [hsettings, hstart] at hnext
    rw [moved, run_cons, run_cons, run, List.foldl_nil, history_next]
    exact congrArg History.undo hnext
  have hgraph : (s.run moved).graph = s.graph := by
    rw [graph, hmoved]
    rfl
  have hidle : Request.Idle {} 0 (s.run moved).graph (.edit (.disconnect "nothing")) := by
    refine Request.Vain.idle ?_ (.disconnect (hgraph ▸ hpresent))
    exact edges_run (edges_start hs) _ (s.run moved).history.current_mem_snapshots
  have hset : (s.run moved).settings = {} := (s.settings_run moved).trans hsettings
  have hrecorded : Request.recorded? (s.run moved).settings 0 (s.run moved).graph
      (.edit (.disconnect "nothing")) = some (s.run moved).graph := hset ▸ hidle
  have hnext := history_next_of_recorded hrecorded
  refine ⟨s, hs, hidle, ?_, ?_, ?_, ?_, ?_⟩
  · rw [hmoved]
    rfl
  · rw [hmoved]
    rfl
  · rw [graph, hnext, History.current_record]
  · rw [hnext, History.canRedo_record]
  · rw [hnext, History.canUndo_record, hset]
    decide

end Session

end ScriptFlow
