import ScriptFlow.Proofs.Congruence
import ScriptFlow.Proofs.Contribution
import ScriptFlow.Proofs.Decoding
import ScriptFlow.Proofs.Integrity
import Mathlib.Data.List.Perm.Basic
import Mathlib.Data.Prod.Lex
import Mathlib.Data.String.Basic
import Mathlib.Logic.Function.Basic

/-! What the summary of a flow tells. It has the nodes in order without what they show, and the edges
in no order. The check reads nothing else, so its errors are the same but for their order. What is
saved depends also on the notes and labels that are shown, and on the order of edges where two of
them leave a node with one tag. -/

namespace ScriptFlow

section

variable {α β γ : Type} {xs ys : List α}

/-- What `g` reads of an element is read by `f` as well. -/
theorem perm_map_of_perm_map {f : α → β} {g : α → γ} (hfg : ∀ x y, f x = f y → g x = g y)
    (h : (xs.map f).Perm (ys.map f)) : (xs.map g).Perm (ys.map g) := by
  have hfactor : ∀ zs : List α, zs.map (some ∘ g) =
      (zs.map f).map (Function.extend f (some ∘ g) fun _ => none) := by
    intro zs
    rw [List.map_map]
    refine List.map_congr_left fun z _ => ?_
    exact (Function.FactorsThrough.extend_apply
      (fun x y hxy => congrArg some (hfg x y hxy)) _ z).symm
  refine (List.map_perm_map_iff (fun _ _ => Option.some.inj)).mp ?_
  rw [List.map_map, List.map_map, hfactor xs, hfactor ys]
  exact h.map _

/-- In lists with the same elements the one element that fits is found first. -/
theorem find?_eq_of_perm {p : α → Bool} (h : xs.Perm ys)
    (hunique : ∀ x ∈ xs, ∀ y ∈ xs, p x = true → p y = true → y = x) : xs.find? p = ys.find? p := by
  cases hx : xs.find? p with
  | none =>
    rw [List.find?_eq_none] at hx
    exact (List.find?_eq_none.mpr fun y hy => hx y (h.mem_iff.mpr hy)).symm
  | some x =>
    have hmem := List.mem_of_find?_eq_some hx
    have hp := List.find?_some hx
    exact (find?_eq_some_of_unique (h.mem_iff.mp hmem) hp fun y hy hpy =>
      hunique x hmem y (h.mem_iff.mpr hy) hp hpy).symm

theorem forall₂_and {R S : α → β → Prop} {ys : List β} (h : List.Forall₂ R xs ys)
    (h' : List.Forall₂ S xs ys) : List.Forall₂ (fun x y => R x y ∧ S x y) xs ys := by
  induction h with
  | nil => exact .nil
  | cons hxy _ ih =>
    cases h' with
    | cons hxy' h' => exact .cons ⟨hxy, hxy'⟩ (ih h')

end

theorem NodeKind.name_injective : Function.Injective NodeKind.name := by
  intro a b h
  cases a <;> cases b <;> first | rfl | exact absurd h (by decide)

theorem Branch.name_injective : Function.Injective Branch.name := by
  intro a b h
  cases a <;> cases b <;> first | rfl | exact absurd h (by decide)

/-- Nodes with one summary differ at most in what they show, read and write. -/
theorem Node.summary_inj {n m : Node} (h : n.summary = m.summary) :
    n.id = m.id ∧ n.kind = m.kind ∧ n.actionType = m.actionType ∧ n.config = m.config := by
  simp only [summary, Json.arr.injEq, List.cons.injEq, Json.str.injEq, Json.obj.injEq] at h
  exact ⟨h.1, NodeKind.name_injective h.2.1, h.2.2.1, h.2.2.2.1⟩

/-- Edges with one summary differ at most in their label. -/
theorem Edge.summary_inj {e f : Edge} (h : e.summary = f.summary) :
    e.id = f.id ∧ e.source = f.source ∧ e.target = f.target ∧ e.branch = f.branch ∧
      e.isData = f.isData := by
  simp only [summary, Json.arr.injEq, List.cons.injEq, Json.str.injEq, Json.bool.injEq] at h
  exact ⟨h.1, h.2.1, h.2.2.1, Branch.name_injective h.2.2.2.1, h.2.2.2.2.1⟩

namespace Edge

/-- What edges are sorted by. -/
def key (e : Edge) : String ×ₗ String ×ₗ String ×ₗ String ×ₗ Bool :=
  toLex (e.id, toLex (e.source, toLex (e.target, toLex (e.branch.name, e.isData))))

theorem key_eq_iff {e f : Edge} : e.key = f.key ↔ e.summary = f.summary := by
  simp [key, summary]

theorem le_iff {e f : Edge} : e.le f = true ↔ e.key ≤ f.key := by
  have hdata : (!e.isData || f.isData) = true ↔ e.isData ≤ f.isData := by
    cases e.isData <;> cases f.isData <;> decide
  simp only [key, Prod.Lex.toLex_le_toLex, ← hdata, le]
  split
  · next h => simp [h]
  next hid =>
  split
  · next h => simp [not_not.mp hid, h]
  next hsource =>
  split
  · next h => simp [not_not.mp hid, not_not.mp hsource, h]
  next htarget =>
  split
  · next h => simp [not_not.mp hid, not_not.mp hsource, not_not.mp htarget, h]
  · next h => simp [not_not.mp hid, not_not.mp hsource, not_not.mp htarget, not_not.mp h]

/-- Edges are sorted by their keys, whatever order they came in. -/
theorem map_key_mergeSort {es es' : List Edge} (h : (es.map key).Perm (es'.map key)) :
    (es.mergeSort le).map key = (es'.mergeSort le).map key := by
  have hsorted : ∀ es : List Edge, ((es.mergeSort le).map key).Pairwise (· ≤ ·) := by
    intro es
    rw [List.pairwise_map]
    refine (List.pairwise_mergeSort ?_ ?_ es).imp le_iff.mp
    · intro a b c hab hbc
      exact le_iff.mpr ((le_iff.mp hab).trans (le_iff.mp hbc))
    · intro a b
      rw [Bool.or_eq_true, le_iff, le_iff]
      exact le_total _ _
  have hperm := fun es : List Edge => (List.mergeSort_perm es le).map key
  exact List.Perm.eq_of_pairwise (fun _ _ _ _ hab hba => le_antisymm hab hba) (hsorted es)
    (hsorted es') ((hperm es).trans (h.trans (hperm es').symm))

theorem map_summary_mergeSort {es es' : List Edge} :
    (es.mergeSort le).map summary = (es'.mergeSort le).map summary ↔
      (es.map summary).Perm (es'.map summary) := by
  have hperm := fun es : List Edge => (List.mergeSort_perm es le).map summary
  refine ⟨fun h => (hperm es).symm.trans (h ▸ hperm es'), fun h => ?_⟩
  have hkeys := map_key_mergeSort (perm_map_of_perm_map (fun e f hef => key_eq_iff.mpr hef) h)
  rw [← List.forall₂_eq_eq_eq, List.forall₂_map_left_iff, List.forall₂_map_right_iff] at hkeys ⊢
  exact hkeys.imp fun _ _ => key_eq_iff.mp

end Edge

/-- The check finds the same fields of two nodes missing. -/
structure Node.CheckedAlike (n m : Node) : Prop where
  id : n.id = m.id
  kind : n.kind = m.kind
  fieldErrors : n.fieldErrors = m.fieldErrors

theorem Node.checkedAlike_of_core {n m : Node} (h : n.core = m.core) : n.CheckedAlike m := by
  simp only [core, Prod.mk.injEq] at h
  obtain ⟨hid, hkind, htype, hconfig⟩ := h
  exact ⟨hid, hkind, by simp only [fieldErrors, hid, htype, hconfig]⟩

namespace Graph

variable {g g' : Graph}

/-- The summary tells the summaries of the nodes in order and those of the edges in no order. -/
theorem summary_eq_iff : g.summary = g'.summary ↔
    List.Forall₂ (fun n m => n.summary = m.summary) g.nodes g'.nodes ∧
      (g.edges.map Edge.summary).Perm (g'.edges.map Edge.summary) := by
  have hnodes : List.Forall₂ (fun n m => n.summary = m.summary) g.nodes g'.nodes ↔
      g.nodes.map Node.summary = g'.nodes.map Node.summary := by
    rw [← List.forall₂_eq_eq_eq, List.forall₂_map_left_iff, List.forall₂_map_right_iff]
  simp only [hnodes, ← Edge.map_summary_mergeSort, summary, Json.obj.injEq, List.cons.injEq,
    Prod.mk.injEq, Json.arr.injEq, true_and, and_true]

/-- What the summaries of edges tell of the structural edges, in some order. -/
theorem structuralEdges_of_summaries {α : Type} {f : Edge → α}
    (hf : ∀ e e' : Edge, e.summary = e'.summary → f e = f e')
    (h : (g.edges.map Edge.summary).Perm (g'.edges.map Edge.summary)) :
    (g.structuralEdges.map f).Perm (g'.structuralEdges.map f) := by
  have hstructural : ∀ g : Graph, g.structuralEdges.map f =
      ((g.edges.map fun e => (e.isStructural, f e)).filter (·.1)).map (·.2) := by
    intro g
    rw [structuralEdges, List.filter_map, List.map_map]
    rfl
  rw [hstructural g, hstructural g']
  refine ((perm_map_of_perm_map (fun e e' he => ?_) h).filter _).map _
  rw [hf e e' he, Edge.isStructural, Edge.isStructural, (Edge.summary_inj he).2.2.2.2]

/-- The ends of an edge and its tag. -/
def ends (e : Edge) : String × String × Branch := (e.source, e.target, e.branch)

section

variable {es es' : List Edge}

theorem isEnd_of_perm (h : (es.map ends).Perm (es'.map ends)) (id : String) :
    isEnd es id = isEnd es' id := by
  have hends : ∀ es : List Edge,
      isEnd es id = (es.map ends).any fun t => t.1 == id || t.2.1 == id := by
    intro es
    rw [List.any_map]
    rfl
  rw [hends es, hends es', h.any_eq]

theorem branchCount_of_perm (h : (es.map ends).Perm (es'.map ends)) (id : String) (b : Branch) :
    branchCount es id b = branchCount es' id b := by
  have hcount : ∀ es : List Edge,
      branchCount es id b = (es.map ends).countP fun t => t.1 == id && t.2.2 == b := by
    intro es
    rw [List.countP_map]
    rfl
  rw [hcount es, hcount es', h.countP_eq]

/-- The errors of nodes that are checked alike, among edges with the same ends. -/
theorem errors_of_perm (h : (es.map ends).Perm (es'.map ends)) {n m : Node}
    (hnm : n.CheckedAlike m) : n.errors es = m.errors es' := by
  simp only [Node.errors, Node.isEntry, Node.branchErrors, isEnd_of_perm h, branchCount_of_perm h,
    hnm.id, hnm.kind, hnm.fieldErrors]
  rfl

end

/-- Where the nodes are checked alike and the edges have the same ends, the nodes have the same
errors, and the same edges have an end that is missing. -/
theorem errors_congr (hnodes : List.Forall₂ Node.CheckedAlike g.nodes g'.nodes)
    (hends : (g.structuralEdges.map ends).Perm (g'.structuralEdges.map ends)) :
    g.nodes.any (·.isEntry) = g'.nodes.any (·.isEntry) ∧ g.endErrors = g'.endErrors ∧
      g.nodes.flatMap (·.errors g.structuralEdges) =
        g'.nodes.flatMap (·.errors g'.structuralEdges) := by
  refine ⟨?_, ?_, ?_⟩
  · have hentries : g.nodes.map Node.isEntry = g'.nodes.map Node.isEntry :=
      map_eq_of_forall₂ hnodes fun n m hnm => by rw [Node.isEntry, Node.isEntry, hnm.kind]
    have hany : ∀ nodes : List Node, nodes.any (·.isEntry) = (nodes.map Node.isEntry).any id := by
      intro nodes
      rw [List.any_map]
      rfl
    rw [hany, hany, hentries]
  · have hids : g.nodes.map (·.id) = g'.nodes.map (·.id) :=
      map_eq_of_forall₂ hnodes fun _ _ hnm => hnm.id
    have hnode : ∀ id, g.hasNode id = g'.hasNode id := by
      intro id
      rw [Bool.eq_iff_iff, hasNode_iff, hasNode_iff]
      exact iff_of_eq (congrArg (id ∈ ·) hids)
    funext e
    simp only [endErrors, hnode]
  · rw [List.flatMap_def, List.flatMap_def,
      map_eq_of_forall₂ hnodes fun n m hnm => errors_of_perm hends hnm]

theorem ends_of_summaries (h : (g.edges.map Edge.summary).Perm (g'.edges.map Edge.summary)) :
    (g.structuralEdges.map ends).Perm (g'.structuralEdges.map ends) := by
  refine structuralEdges_of_summaries (fun e e' he => ?_) h
  obtain ⟨-, hsource, htarget, hbranch, -⟩ := Edge.summary_inj he
  rw [ends, ends, hsource, htarget, hbranch]

/-- The check does not depend on the order of edges, except for the order of what it finds. -/
theorem validate_perm (hnodes : List.Forall₂ Node.CheckedAlike g.nodes g'.nodes)
    (hedges : (g.edges.map Edge.summary).Perm (g'.edges.map Edge.summary)) :
    g.validate.Perm g'.validate := by
  obtain ⟨hentry, hend, hnodes⟩ := errors_congr hnodes (ends_of_summaries hedges)
  have hends : (g.structuralEdges.flatMap g'.endErrors).Perm
      (g'.structuralEdges.flatMap g'.endErrors) := by
    rw [List.flatMap_def, List.flatMap_def]
    refine (structuralEdges_of_summaries (fun e e' he => ?_) hedges).flatten
    obtain ⟨hid, hsource, htarget, -⟩ := Edge.summary_inj he
    rw [endErrors, endErrors, hid, hsource, htarget]
  rw [validate, validate, hentry, hend, hnodes]
  exact (hends.append_left _).append_right _

/-- The first edge from an id with a tag, by the ends of edges. -/
theorem target?_eq (g : Graph) (id : String) (b : Branch) : g.target? id b =
    ((g.structuralEdges.map ends).find? fun t => t.1 == id && t.2.2 == b).map (·.2.1) := by
  rw [target?, List.find?_map, Option.map_map, structuralEdges, List.find?_filter]
  congr 2
  funext e
  rw [Bool.eq_iff_iff]
  simp [ends, and_assoc]

/-- Where all edges from an id with a tag lead to the same node, the order of edges does not tell. -/
theorem target?_of_perm (h : (g.structuralEdges.map ends).Perm (g'.structuralEdges.map ends))
    {id : String} {b : Branch} (hsame : ∀ e ∈ g.structuralEdges, ∀ e' ∈ g.structuralEdges,
      e.source = id → e'.source = id → e.branch = b → e'.branch = b → e.target = e'.target) :
    g.target? id b = g'.target? id b := by
  rw [target?_eq, target?_eq, find?_eq_of_perm h]
  intro t ht t' ht' hp hp'
  obtain ⟨e, he, rfl⟩ := List.mem_map.mp ht
  obtain ⟨e', he', rfl⟩ := List.mem_map.mp ht'
  simp only [ends, Bool.and_eq_true, beq_iff_eq] at hp hp'
  rw [ends, ends, hsame e he e' he' hp.1 hp'.1 hp.2 hp'.2, hp.1, hp.2, hp'.1, hp'.2]

/-- Where no two edges leave a node with one tag, neither does their order tell. -/
theorem target?_of_summaries (h : (g.edges.map Edge.summary).Perm (g'.edges.map Edge.summary))
    (hports : (g.structuralEdges.map fun e => (e.source, e.branch)).Nodup) (id : String)
    (b : Branch) : g.target? id b = g'.target? id b := by
  refine target?_of_perm (ends_of_summaries h) fun e he e' he' hs hs' hb hb' => ?_
  rw [List.inj_on_of_nodup_map hports he he' (by rw [hs, hs', hb, hb'])]

end Graph

/-- The edges of a drawn flow leave its nodes with different tags. -/
theorem nodup_ways_of_draw {d : Document} {stem : String} {g : Graph} (h : d.draw stem = .ok g) :
    (g.structuralEdges.map fun e => (e.source, e.branch)).Nodup := by
  have hports : (g.structuralEdges.map Edge.port).Nodup :=
    (nodup_edge_ports h).sublist (List.filter_sublist.map _)
  -- the port of an edge is told by its source and its tag
  refine List.Nodup.of_map (fun w => (w.1, if w.2 = .loopBack then .none else w.2)) ?_
  rw [List.map_map]
  exact hports

/-! A session that asks for no saving and would save another script. -/

/-- Nodes that write no variables have no data edges between them. -/
theorem Graph.annotate_of_outputs {g : Graph} (h : ∀ n ∈ g.nodes, n.outputs = []) :
    g.annotate = g := by
  have hproducer : ∀ v, producer? g.nodes v = none := by
    intro v
    rw [producer?, Option.map_eq_none_iff, List.find?_eq_none]
    intro n hn
    rw [h n (List.mem_reverse.mp hn)]
    exact Bool.false_ne_true
  have huses : g.nodes.flatMap (usesOf g.nodes) = [] := by
    refine List.flatMap_eq_nil_iff.mpr fun n _ => ?_
    simp [usesOf, hproducer]
  rw [annotate, inferDataEdges, huses, dataEdgesFor, List.append_nil]

namespace Session

variable {s : Session} {drawn : Nat}

theorem next_edit {c : Command} {change : Change} (h : (c.run s.graph drawn).2 = .ok change) :
    s.next drawn (.edit c) = s.commitChange change := by
  simp only [next, perform, edit, h, Except.map]

theorem next_save {d : Document} (h : s.graph.saveWith s.document.extra = .ok d) :
    s.next drawn .save = { s with document := d, savedDigest := s.graph.digest } := by
  simp only [next, perform, save, h, bind, Except.bind, Except.map]

end Session

/-- The edge into the second pause leaves the entry, beside the one into the first, and the script
is saved. -/
def fork : List (Nat × Request) :=
  [(0, .edit (.disconnect "edge_node_2_node_3")),
    (0, .edit (.connect "node_1" "node_3" (.str "none"))), (0, .save)]

/-- The edge into the first pause is drawn anew. -/
def redrawn : List (Nat × Request) :=
  [(0, .edit (.disconnect "edge_node_1_node_2")),
    (0, .edit (.connect "node_1" "node_2" (.str "none")))]

/-- The drawn pauses, laid out, with other edges. -/
def detoured (es : List Edge) : Graph :=
  { ((Document.pauses [1, 2]).draw defaultStem).toOption.getD ⟨[], []⟩ |>.arrange {} with edges := es }

theorem annotate_detoured (es : List Edge) : (detoured es).annotate = detoured es := by
  have houtputs : ∀ n ∈ (detoured []).nodes, n.outputs = [] := by decide
  exact Graph.annotate_of_outputs houtputs

/-- An edit that leads to other edges changes nothing else in the session. -/
theorem next_edit_detoured {s : Session} {c : Command} {es : List Edge} (es' : List Edge)
    (h : s.graph = detoured es) (hes : ∀ e ∈ es', e.isStructural)
    (hc : (c.run (detoured es) 0).2 = .ok (.ofGraph (detoured es'))) :
    (s.next 0 (.edit c)).graph = detoured es' ∧ (s.next 0 (.edit c)).document = s.document ∧
      (s.next 0 (.edit c)).savedDigest = s.savedDigest := by
  have hstrip : (detoured es').stripDataEdges = detoured es' :=
    congrArg detoured (List.filter_eq_self.mpr hes)
  have hnext : s.next 0 (.edit c) = s.commit (detoured es') := Session.next_edit (h ▸ hc)
  rw [hnext, Session.commit, hstrip, annotate_detoured]
  exact ⟨History.current_record _ _ _, rfl, rfl⟩

theorem saveWith_detoured_first :
    (detoured [.structural "node_1" "node_2" .none, .structural "node_1" "node_3" .none]).saveWith
      [] = .ok (Document.pauses [1]) :=
  saveWith_alone rfl rfl (walkFrom_alone rfl (by decide) (by decide) rfl rfl rfl) rfl rfl

theorem saveWith_detoured_second :
    (detoured [.structural "node_1" "node_3" .none, .structural "node_1" "node_2" .none]).saveWith
      [] = .ok (Document.pauses [2]) :=
  saveWith_alone rfl rfl (walkFrom_alone rfl (by decide) (by decide) rfl rfl rfl) rfl rfl

theorem run_fork {s : Session} (h : Session.start (Document.pauses [1, 2]) {} = .ok s) :
    (s.run fork).graph =
        detoured [.structural "node_1" "node_2" .none, .structural "node_1" "node_3" .none] ∧
      (s.run fork).document = Document.pauses [1] ∧
        (s.run fork).savedDigest = (s.run fork).graph.digest := by
  have hgraph : s.graph =
      detoured [.structural "node_1" "node_2" .none, .structural "node_2" "node_3" .none] := by
    cases h
    exact annotate_detoured _
  have hextra : s.document.extra = [] := by
    cases h
    rfl
  obtain ⟨hcut, hdocument, -⟩ := next_edit_detoured [.structural "node_1" "node_2" .none] hgraph
    (by decide) (c := .disconnect "edge_node_2_node_3") rfl
  obtain ⟨hforked, hdocument', -⟩ := next_edit_detoured
    [.structural "node_1" "node_2" .none, .structural "node_1" "node_3" .none] hcut (by decide)
    (c := .connect "node_1" "node_3" (.str "none")) rfl
  have hsave := saveWith_detoured_first
  rw [← hforked, ← hextra, ← hdocument, ← hdocument'] at hsave
  rw [fork, Session.run_cons, Session.run_cons, Session.run_cons, Session.next_save hsave]
  exact ⟨hforked, rfl, rfl⟩

theorem run_redrawn {s : Session} (h : s.graph =
      detoured [.structural "node_1" "node_2" .none, .structural "node_1" "node_3" .none]) :
    (s.run redrawn).graph =
        detoured [.structural "node_1" "node_3" .none, .structural "node_1" "node_2" .none] ∧
      (s.run redrawn).document = s.document ∧ (s.run redrawn).savedDigest = s.savedDigest := by
  obtain ⟨hcut, hdocument, hdigest⟩ := next_edit_detoured [.structural "node_1" "node_3" .none] h
    (by decide) (c := .disconnect "edge_node_1_node_2") rfl
  obtain ⟨hforked, hdocument', hdigest'⟩ := next_edit_detoured
    [.structural "node_1" "node_3" .none, .structural "node_1" "node_2" .none] hcut (by decide)
    (c := .connect "node_1" "node_2" (.str "none")) rfl
  exact ⟨hforked, hdocument'.trans hdocument, hdigest'.trans hdigest⟩

/-- A pause of which this is shown. -/
def noted (shown : Fields) : Graph :=
  ⟨[⟨"main", .entry, "capability", [("name", .str "main")], .zero, [], [], []⟩,
      ⟨"act", .action, "wait", [("type", .str "wait"), ("ms", .int 1)], .zero, shown, [], []⟩],
    [.structural "main" "act" .none]⟩

/-- A stored note. -/
def pauseNote : Json := .obj [("content", .str "pause"), ("configHash", .str "0123456789ab")]

theorem saveWith_noted {shown fields : Fields} (hv : (noted shown).validate = [])
    (hl : (⟨"act", .action, "wait", [("type", .str "wait"), ("ms", .int 1)], .zero, shown, [], []⟩ :
      Node).leaf = .ok (.leaf "wait" fields)) :
    (noted shown).saveWith [] =
      .ok ⟨[⟨some "main", none, none, none, [], [.leaf "wait" fields]⟩], []⟩ :=
  saveWith_alone hv rfl (walkFrom_alone rfl (by decide) (by decide) rfl rfl rfl) hl rfl

/-- A session that has saved the script of the first pause says that nothing has changed and saves
the script of the second one. And of two flows with one summary, one is saved with a note. -/
theorem unflagged_redrawn :
    (∃ s, Session.start (Document.pauses [1, 2]) {} = .ok s ∧
      ((s.run fork).run redrawn).graph.summary = (s.run fork).graph.summary ∧
      ((s.run fork).run redrawn).hasChanges = false ∧
      ((s.run fork).run redrawn).document = Document.pauses [1] ∧
      ∃ s', ((s.run fork).run redrawn).save = .ok s' ∧ s'.document = Document.pauses [2]) ∧
    (noted []).summary = (noted [("note", pauseNote)]).summary ∧
      (noted []).saveWith [] = .ok (Document.pauses [1]) ∧
      (noted [("note", pauseNote)]).saveWith [] = .ok ⟨[⟨some "main", none, none, none, [],
        [.leaf "wait" [("ms", .int 1), (noteKey, pauseNote)]]⟩], []⟩ := by
  have hnoted : (noted []).summary = (noted [("note", pauseNote)]).summary :=
    Graph.summary_eq_iff.mpr ⟨.cons rfl (.cons rfl .nil), .refl _⟩
  refine ⟨?_, hnoted, saveWith_noted rfl rfl, saveWith_noted rfl rfl⟩
  obtain ⟨s, hs⟩ : ∃ s, Session.start (Document.pauses [1, 2]) {} = .ok s := ⟨_, rfl⟩
  obtain ⟨hfork, hdocument, hsaved⟩ := run_fork hs
  obtain ⟨hredrawn, hdocument', hsaved'⟩ := run_redrawn hfork
  have hsummary : ((s.run fork).run redrawn).graph.summary = (s.run fork).graph.summary := by
    rw [hredrawn, hfork]
    exact Graph.summary_eq_iff.mpr ⟨List.forall₂_same.mpr fun _ _ => rfl, List.Perm.swap _ _ _⟩
  refine ⟨s, hs, hsummary, ?_, hdocument'.trans hdocument,
    { (s.run fork).run redrawn with
      document := Document.pauses [2]
      savedDigest := ((s.run fork).run redrawn).graph.digest }, ?_, rfl⟩
  · rw [Session.hasChanges, hsaved', hsaved, Graph.digest, hsummary, Graph.digest]
    exact bne_self_eq_false _
  · rw [Session.save, hredrawn, hdocument', hdocument]
    exact bind_eq_ok.mpr ⟨_, saveWith_detoured_second, rfl⟩

end ScriptFlow
