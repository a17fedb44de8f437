import ScriptFlow.Proofs.Missing
import Mathlib.Data.List.Nodup
import Mathlib.Data.List.Sigma

/-! The errors of a flow are its violations, one for one. A violation is told by what is violated and
by the place of the edge or the node, so that edges with one id and nodes with one id have violations
of their own. What is violated at a node is told by the node and by the structural edges that touch
its id, whatever else there is. -/

namespace ScriptFlow

inductive EdgeEnd where
  | source
  | target
deriving DecidableEq

/-- The id at one end of an edge. -/
def Edge.endAt (e : Edge) : EdgeEnd → String
  | .source => e.source
  | .target => e.target

def Edge.touches (e : Edge) (id : String) : Bool := e.source == id || e.target == id

/-- The edges with a tag that leave an id. -/
def Graph.leaving (edges : List Edge) (id : String) (b : Branch) : List Edge :=
  edges.filter fun e => e.source == id && e.branch == b

/-- What can be wrong with a node. -/
inductive Flaw where
  | disconnected
  | repeatedOutcome (branch : Branch)
  | repeatedBody
  | missingField (field : RequiredField)
deriving DecidableEq

namespace Flaw

/-- What is wrong with a node among structural edges. -/
def At (n : Node) (edges : List Edge) : Flaw → Prop
  | disconnected => ∀ e ∈ edges, e.source ≠ n.id ∧ e.target ≠ n.id
  | repeatedOutcome b => n.kind = .condition ∧ (b = .whenTrue ∨ b = .whenFalse) ∧
      1 < (Graph.leaving edges n.id b).length
  | repeatedBody => n.kind = .loop ∧ 1 < (Graph.leaving edges n.id .body).length
  | missingField r => r ∈ Catalog.required n.actionType ∧ r.Unfilled n.config

instance (n : Node) (edges : List Edge) (flaw : Flaw) : Decidable (flaw.At n edges) :=
  match flaw with
  | disconnected => inferInstanceAs (Decidable (∀ e ∈ edges, e.source ≠ n.id ∧ e.target ≠ n.id))
  | repeatedOutcome b => inferInstanceAs (Decidable (n.kind = .condition ∧
      (b = .whenTrue ∨ b = .whenFalse) ∧ 1 < (Graph.leaving edges n.id b).length))
  | repeatedBody => inferInstanceAs (Decidable (n.kind = .loop ∧
      1 < (Graph.leaving edges n.id .body).length))
  | missingField r => inferInstanceAs (Decidable (r ∈ Catalog.required n.actionType ∧
      r.Unfilled n.config))

/-- How a flaw is reported of the node with an id. -/
def error (id : String) : Flaw → FlowError
  | disconnected => .disconnected id
  | repeatedOutcome b => .repeatedOutcome id b
  | repeatedBody => .repeatedBody id
  | missingField r => .missingField id r

theorem node?_error (id : String) (flaw : Flaw) : (flaw.error id).node? = some id := by
  cases flaw <;> rfl

/-- What is looked for at a node, in this order. -/
def candidates (n : Node) : List Flaw :=
  [disconnected] ++ [repeatedOutcome .whenTrue, repeatedOutcome .whenFalse, repeatedBody] ++
    (Catalog.required n.actionType).map missingField

end Flaw

/-- The flaws of a node; an entry has none. -/
def Node.flaws (n : Node) (edges : List Edge) : List Flaw :=
  if n.isEntry then [] else (Flaw.candidates n).filter (·.At n edges)

/-- What can be wrong with a flow: that it has no entry, an end of a structural edge, or a node. -/
inductive Violation where
  | noEntry
  | missingEnd (edge : Nat) (side : EdgeEnd)
  | ofNode (node : Nat) (flaw : Flaw)
deriving DecidableEq

namespace Violation

/-- What is wrong with a flow. The place of an edge is its place among the structural ones. -/
def In (g : Graph) : Violation → Prop
  | noEntry => ∀ n ∈ g.nodes, n.kind ≠ .entry
  | missingEnd i side => ∃ e, g.structuralEdges[i]? = some e ∧ ∀ n ∈ g.nodes, n.id ≠ e.endAt side
  | ofNode k flaw => ∃ n, g.nodes[k]? = some n ∧ n.kind ≠ .entry ∧ flaw.At n g.structuralEdges

/-- How a violation is reported. -/
def error? (g : Graph) : Violation → Option FlowError
  | noEntry => some .noEntry
  | missingEnd i side => g.structuralEdges[i]?.map fun e => .missingEnd e.id (e.endAt side)
  | ofNode k flaw => g.nodes[k]?.map fun n => flaw.error n.id

/-- The place of the node with which something is wrong. -/
def place? : Violation → Option Nat
  | noEntry | missingEnd .. => none
  | ofNode k _ => some k

end Violation

namespace Graph

/-- The violations at the ends of an edge. -/
def endViolations (g : Graph) (p : Edge × Nat) : List Violation :=
  ([EdgeEnd.source, .target].filter fun side => !g.hasNode (p.1.endAt side)).map
    (.missingEnd p.2)

/-- The violations at a node. -/
def nodeViolations (g : Graph) (p : Node × Nat) : List Violation :=
  (p.1.flaws g.structuralEdges).map (.ofNode p.2)

/-- The violations of a flow, in the order in which they are reported. -/
def violations (g : Graph) : List Violation :=
  (if g.nodes.any (·.isEntry) then [] else [.noEntry]) ++
    g.structuralEdges.zipIdx.flatMap g.endViolations ++ g.nodes.zipIdx.flatMap g.nodeViolations

/-- The errors of the violations at the node in a place. -/
def errorsAt (g : Graph) (k : Nat) : List FlowError :=
  (g.violations.filter (·.place? == some k)).filterMap (·.error? g)

/-- The structural edges that touch an id. -/
def touching (g : Graph) (id : String) : List Edge := g.structuralEdges.filter (·.touches id)

/-- A flow in which nothing is wrong. -/
structure Sound (g : Graph) : Prop where
  entry : ∃ n ∈ g.nodes, n.kind = .entry
  ends : ∀ e ∈ g.structuralEdges,
    (∃ n ∈ g.nodes, n.id = e.source) ∧ ∃ n ∈ g.nodes, n.id = e.target
  connected : ∀ n ∈ g.nodes, n.kind ≠ .entry →
    ∃ e ∈ g.structuralEdges, e.source = n.id ∨ e.target = n.id
  outcomes : ∀ n ∈ g.nodes, n.kind = .condition → ∀ b, b = .whenTrue ∨ b = .whenFalse →
    (leaving g.structuralEdges n.id b).length ≤ 1
  bodies : ∀ n ∈ g.nodes, n.kind = .loop → (leaving g.structuralEdges n.id .body).length ≤ 1
  filled : ∀ n ∈ g.nodes, n.kind ≠ .entry → ∀ r ∈ Catalog.required n.actionType,
    ¬ r.Unfilled n.config

end Graph

/-! The errors of one node. -/

theorem Catalog.nodup_required (type : String) : (required type).Nodup := by
  have hblocks : ∀ b ∈ blocks, b.required.Nodup := by decide
  unfold required
  cases hb : block? type with
  | none => exact List.nodup_nil
  | some b => exact hblocks b (List.mem_of_find?_eq_some hb)

namespace Graph

variable {edges : List Edge} {id : String} {b : Branch}

theorem branchCount_eq : branchCount edges id b = (leaving edges id b).length :=
  List.countP_eq_length_filter

theorem isEnd_eq_false_iff :
    isEnd edges id = false ↔ ∀ e ∈ edges, e.source ≠ id ∧ e.target ≠ id := by
  simp [isEnd]

end Graph

namespace Node

variable {n : Node} {edges edges' : List Edge}

theorem isEntry_iff : n.isEntry = true ↔ n.kind = .entry := by
  rw [isEntry, beq_iff_eq]

theorem disconnected_eq (n : Node) (edges : List Edge) :
    (if Graph.isEnd edges n.id then [] else [FlowError.disconnected n.id]) =
      ([Flaw.disconnected].filter (·.At n edges)).map (·.error n.id) := by
  cases h : Graph.isEnd edges n.id with
  | true =>
    have hnot : ¬ Flaw.disconnected.At n edges := fun hat => by
      rw [Graph.isEnd_eq_false_iff.mpr hat] at h
      exact absurd h Bool.false_ne_true
    simp [hnot]
  | false =>
    have hat : Flaw.disconnected.At n edges := Graph.isEnd_eq_false_iff.mp h
    simp [hat, Flaw.error]

theorem branchErrors_eq (n : Node) (edges : List Edge) :
    n.branchErrors edges =
      ([Flaw.repeatedOutcome .whenTrue, .repeatedOutcome .whenFalse, .repeatedBody].filter
        (·.At n edges)).map (·.error n.id) := by
  unfold branchErrors
  split
  next h =>
    by_cases htrue : 1 < (Graph.leaving edges n.id .whenTrue).length <;>
      by_cases hfalse : 1 < (Graph.leaving edges n.id .whenFalse).length <;>
        simp [Flaw.At, h, Graph.branchCount_eq, Flaw.error, htrue, hfalse]
  next h =>
    by_cases hbody : 1 < (Graph.leaving edges n.id .body).length <;>
      simp [Flaw.At, h, Graph.branchCount_eq, Flaw.error, hbody]
  next hcondition hloop =>
    have hc : n.kind ≠ .condition := hcondition
    have hl : n.kind ≠ .loop := hloop
    simp [Flaw.At, hc, hl]

theorem fieldErrors_eq (n : Node) (edges : List Edge) :
    n.fieldErrors = (((Catalog.required n.actionType).map Flaw.missingField).filter
      (·.At n edges)).map (·.error n.id) := by
  have hmissing : (Catalog.required n.actionType).filter (·.isMissing n.config) =
      (Catalog.required n.actionType).filter fun r => (Flaw.missingField r).At n edges := by
    refine List.filter_congr fun r hr => ?_
    rw [Bool.eq_iff_iff, RequiredField.isMissing_iff, decide_eq_true_iff]
    exact ⟨fun h => ⟨hr, h⟩, And.right⟩
  rw [fieldErrors, hmissing, List.filter_map, List.map_map]
  rfl

/-- The errors of a node are those of its flaws. -/
theorem errors_eq (n : Node) (edges : List Edge) :
    n.errors edges = (n.flaws edges).map (·.error n.id) := by
  unfold errors flaws
  split
  · rfl
  · rw [disconnected_eq, branchErrors_eq, fieldErrors_eq n edges, Flaw.candidates,
      List.filter_append, List.filter_append, List.map_append, List.map_append]

theorem mem_candidates {flaw : Flaw} (h : flaw.At n edges) : flaw ∈ Flaw.candidates n := by
  cases flaw with
  | disconnected => simp [Flaw.candidates]
  | repeatedOutcome b =>
    obtain ⟨-, rfl | rfl, -⟩ := h <;> simp [Flaw.candidates]
  | repeatedBody => simp [Flaw.candidates]
  | missingField r => simp [Flaw.candidates, h.1]

theorem mem_flaws {flaw : Flaw} : flaw ∈ n.flaws edges ↔ n.kind ≠ .entry ∧ flaw.At n edges := by
  unfold flaws
  split
  next h => simp [isEntry_iff.mp h]
  next h =>
    rw [isEntry_iff] at h
    rw [List.mem_filter, decide_eq_true_iff]
    exact ⟨fun hf => ⟨h, hf.2⟩, fun hf => ⟨mem_candidates hf.2, hf.2⟩⟩

theorem nodup_flaws (n : Node) (edges : List Edge) : (n.flaws edges).Nodup := by
  unfold flaws
  split
  · exact List.nodup_nil
  · refine List.Nodup.filter _ (List.Nodup.append (by decide) ?_ ?_)
    · exact (Catalog.nodup_required n.actionType).map fun r r' h => Flaw.missingField.inj h
    · simp [List.disjoint_left]

/-- The edges that touch the id of a node are all that its flaws are read from. -/
theorem at_congr (flaw : Flaw) (h : (edges.filter (·.touches n.id)).Perm
    (edges'.filter (·.touches n.id))) : flaw.At n edges ↔ flaw.At n edges' := by
  have hleaving : ∀ b, (Graph.leaving edges n.id b).length =
      (Graph.leaving edges' n.id b).length := by
    intro b
    have hpart : ∀ es : List Edge, Graph.leaving es n.id b =
        (es.filter (·.touches n.id)).filter fun e => e.source == n.id && e.branch == b := by
      intro es
      rw [List.filter_filter]
      refine List.filter_congr fun e _ => ?_
      cases hs : e.source == n.id <;> simp [Edge.touches, hs]
    rw [hpart edges, hpart edges']
    exact (h.filter _).length_eq
  have hfree : ∀ es : List Edge,
      Flaw.At n es .disconnected ↔ (es.filter (·.touches n.id)).length = 0 := by
    intro es
    simp [Flaw.At, Edge.touches]
  cases flaw with
  | disconnected => rw [hfree, hfree, h.length_eq]
  | repeatedOutcome b => simp only [Flaw.At, hleaving]
  | repeatedBody => simp only [Flaw.At, hleaving]
  | missingField r => exact Iff.rfl

theorem flaws_congr (h : (edges.filter (·.touches n.id)).Perm
    (edges'.filter (·.touches n.id))) : n.flaws edges = n.flaws edges' := by
  unfold flaws
  refine congrArg (ite _ []) (List.filter_congr fun flaw _ => ?_)
  exact decide_eq_decide.mpr (at_congr flaw h)

end Node

/-! Lists that are made of parts, one for each place of another list. -/

section

variable {α β γ : Type} {l : List α}

theorem nodup_flatMap_zipIdx {f : α × Nat → List β} (hpart : ∀ p, (f p).Nodup)
    (hplace : ∀ p q, ∀ b ∈ f p, b ∈ f q → p.2 = q.2) : (l.zipIdx.flatMap f).Nodup := by
  refine List.nodup_flatMap.mpr ⟨fun p _ => hpart p, ?_⟩
  refine (List.pairwise_map.mp (List.nodup_zipIdx_map_snd l)).imp ?_
  intro p q hne b hp hq
  exact hne (hplace p q b hp hq)

theorem map_flatMap_zipIdx {f : α × Nat → List β} {f' : α → List γ} {u : β → Option γ}
    (h : ∀ p ∈ l.zipIdx, (f p).map u = (f' p.1).map some) :
    (l.zipIdx.flatMap f).map u = (l.flatMap f').map some := by
  calc (l.zipIdx.flatMap f).map u
      = l.zipIdx.flatMap fun p => (f' p.1).map some := by
        rw [List.map_flatMap, List.flatMap_congr h]
    _ = (l.zipIdx.map Prod.fst).flatMap fun x => (f' x).map some := by rw [List.flatMap_map]
    _ = (l.flatMap f').map some := by rw [List.zipIdx_map_fst, List.map_flatMap]

theorem filter_flatMap_zipIdx {f : α × Nat → List β} {p : β → Bool} {k : Nat} {x : α}
    (h : l[k]? = some x) (hin : ∀ b ∈ f (x, k), p b = true)
    (hout : ∀ q, q.2 ≠ k → ∀ b ∈ f q, p b = false) :
    (l.zipIdx.flatMap f).filter p = f (x, k) := by
  have hnone : ∀ ps : List (α × Nat), (∀ q ∈ ps, q.2 ≠ k) → (ps.flatMap f).filter p = [] := by
    intro ps hps
    refine List.filter_eq_nil_iff.mpr fun b hb => ?_
    obtain ⟨q, hq, hbq⟩ := List.mem_flatMap.mp hb
    exact Bool.not_eq_true _ ▸ hout q (hps q hq) b hbq
  obtain ⟨hk, hx⟩ := List.getElem?_eq_some_iff.mp h
  have hsplit : l.zipIdx =
      (l.take k).zipIdx ++ (x, k) :: (l.drop (k + 1)).zipIdx (k + 1) := by
    conv_lhs => rw [← List.take_append_drop k l, List.drop_eq_getElem_cons hk, hx]
    rw [List.zipIdx_append, List.zipIdx_cons, List.length_take, Nat.min_eq_left hk.le, Nat.zero_add]
  rw [hsplit, List.flatMap_append, List.flatMap_cons, List.filter_append, List.filter_append,
    hnone, hnone, List.filter_eq_self.mpr hin, List.nil_append, List.append_nil]
  · intro q hq
    have := List.le_snd_of_mem_zipIdx hq
    omega
  · intro q hq
    have := List.snd_lt_of_mem_zipIdx hq
    rw [List.length_take] at this
    omega

end

/-! The errors of a flow. -/

namespace Graph

variable {g : Graph}

theorem mem_endViolations {v : Violation} {p : Edge × Nat} :
    v ∈ g.endViolations p ↔
      ∃ side, (∀ n ∈ g.nodes, n.id ≠ p.1.endAt side) ∧ v = .missingEnd p.2 side := by
  have hside : ∀ side : EdgeEnd, side ∈ [EdgeEnd.source, .target] := fun side => by
    cases side <;> simp
  simp only [endViolations, List.mem_map, List.mem_filter, hside, true_and, Bool.not_eq_true',
    hasNode, List.any_eq_false, beq_iff_eq, ← ne_eq, eq_comm (b := v)]

theorem mem_violations {v : Violation} : v ∈ g.violations ↔ v.In g := by
  rw [violations, List.mem_append, List.mem_append, List.mem_flatMap, List.mem_flatMap]
  cases v with
  | noEntry => simp [Violation.In, mem_endViolations, nodeViolations, ← Node.isEntry_iff]
  | missingEnd i side =>
    simp [Violation.In, mem_endViolations, nodeViolations, List.mem_zipIdx_iff_getElem?]
  | ofNode k flaw =>
    simp [Violation.In, mem_endViolations, nodeViolations, List.mem_zipIdx_iff_getElem?,
      Node.mem_flaws]

theorem nodup_violations (g : Graph) : g.violations.Nodup := by
  have hends : (g.structuralEdges.zipIdx.flatMap g.endViolations).Nodup := by
    refine nodup_flatMap_zipIdx (fun p => ?_) fun p q v hp hq => ?_
    · refine ((by decide : [EdgeEnd.source, .target].Nodup).filter _).map ?_
      exact fun side side' h => (Violation.missingEnd.inj h).2
    · obtain ⟨side, -, rfl⟩ := mem_endViolations.mp hp
      obtain ⟨side', -, h⟩ := mem_endViolations.mp hq
      exact (Violation.missingEnd.inj h).1
  have hnodes : (g.nodes.zipIdx.flatMap g.nodeViolations).Nodup := by
    refine nodup_flatMap_zipIdx (fun p => ?_) fun p q v hp hq => ?_
    · exact (Node.nodup_flaws _ _).map fun flaw flaw' h => (Violation.ofNode.inj h).2
    · obtain ⟨flaw, -, rfl⟩ := List.mem_map.mp hp
      obtain ⟨flaw', -, h⟩ := List.mem_map.mp hq
      exact (Violation.ofNode.inj h).1.symm
  have hentry : (if g.nodes.any (·.isEntry) then [] else [Violation.noEntry]).Nodup := by
    split <;> simp
  refine List.Nodup.append (List.Nodup.append hentry hends ?_) hnodes ?_
  · intro v hv hv'
    obtain ⟨p, -, hp⟩ := List.mem_flatMap.mp hv'
    obtain ⟨side, -, rfl⟩ := mem_endViolations.mp hp
    split at hv <;> simp at hv
  · intro v hv hv'
    obtain ⟨p, -, hp⟩ := List.mem_flatMap.mp hv'
    obtain ⟨flaw, -, rfl⟩ := List.mem_map.mp hp
    rcases List.mem_append.mp hv with hv | hv
    · split at hv <;> simp at hv
    · simp [mem_endViolations] at hv

/-- The errors are those of the violations, in the same order. -/
theorem map_error_violations (g : Graph) :
    g.violations.map (·.error? g) = g.validate.map some := by
  have hentry : (if g.nodes.any (·.isEntry) then [] else [Violation.noEntry]).map (·.error? g) =
      (if g.nodes.any (·.isEntry) then [] else [FlowError.noEntry]).map some := by
    split <;> rfl
  have hends : (g.structuralEdges.zipIdx.flatMap g.endViolations).map (·.error? g) =
      (g.structuralEdges.flatMap g.endErrors).map some := by
    refine map_flatMap_zipIdx fun p hp => ?_
    have hat : g.structuralEdges[p.2]? = some p.1 := List.mem_zipIdx_iff_getElem?.mp hp
    cases hs : g.hasNode p.1.source <;> cases ht : g.hasNode p.1.target <;>
      simp [endViolations, endErrors, Edge.endAt, Violation.error?, hat, hs, ht]
  have hnodes : (g.nodes.zipIdx.flatMap g.nodeViolations).map (·.error? g) =
      (g.nodes.flatMap (·.errors g.structuralEdges)).map some := by
    refine map_flatMap_zipIdx fun p hp => ?_
    have hat : g.nodes[p.2]? = some p.1 := List.mem_zipIdx_iff_getElem?.mp hp
    rw [nodeViolations, Node.errors_eq, List.map_map, List.map_map]
    refine List.map_congr_left fun flaw _ => ?_
    simp [Violation.error?, hat]
  simp only [violations, validate, List.map_append, hentry, hends, hnodes]

theorem not_in_missingEnd (h : ∀ v : Violation, ¬ v.In g) {e : Edge}
    (he : e ∈ g.structuralEdges) (side : EdgeEnd) : ∃ n ∈ g.nodes, n.id = e.endAt side := by
  obtain ⟨i, hi⟩ := List.mem_iff_getElem?.mp he
  by_contra hnone
  push Not at hnone
  exact h (.missingEnd i side) ⟨e, hi, hnone⟩

theorem not_in_ofNode (h : ∀ v : Violation, ¬ v.In g) {n : Node} (hn : n ∈ g.nodes)
    (hkind : n.kind ≠ .entry) (flaw : Flaw) : ¬ flaw.At n g.structuralEdges := by
  obtain ⟨k, hk⟩ := List.mem_iff_getElem?.mp hn
  exact fun hat => h (.ofNode k flaw) ⟨n, hk, hkind, hat⟩

theorem sound_iff : g.Sound ↔ ∀ v : Violation, ¬ v.In g := by
  constructor
  · intro hs v hv
    cases v with
    | noEntry =>
      obtain ⟨n, hn, hkind⟩ := hs.entry
      exact hv n hn hkind
    | missingEnd i side =>
      obtain ⟨e, he, hnone⟩ := hv
      obtain ⟨⟨n, hn, hsource⟩, m, hm, htarget⟩ := hs.ends e (List.mem_of_getElem? he)
      cases side with
      | source => exact hnone n hn hsource
      | target => exact hnone m hm htarget
    | ofNode k flaw =>
      obtain ⟨n, hk, hkind, hat⟩ := hv
      have hn := List.mem_of_getElem? hk
      cases flaw with
      | disconnected =>
        obtain ⟨e, he, hend⟩ := hs.connected n hn hkind
        exact hend.elim (hat e he).1 (hat e he).2
      | repeatedOutcome b =>
        obtain ⟨hc, hb, hlt⟩ := hat
        exact absurd (hs.outcomes n hn hc b hb) (Nat.not_le.mpr hlt)
      | repeatedBody => exact absurd (hs.bodies n hn hat.1) (Nat.not_le.mpr hat.2)
      | missingField r => exact hs.filled n hn hkind r hat.1 hat.2
  · intro h
    have hentry : ∃ n ∈ g.nodes, n.kind = .entry := by
      by_contra hnone
      push Not at hnone
      exact h .noEntry hnone
    refine ⟨hentry, fun e he => ⟨not_in_missingEnd h he .source, not_in_missingEnd h he .target⟩,
      fun n hn hkind => ?_, fun n hn hc b hb => ?_, fun n hn hl => ?_, fun n hn hkind r hr hu =>
        not_in_ofNode h hn hkind (.missingField r) ⟨hr, hu⟩⟩
    · by_contra hnone
      push Not at hnone
      exact not_in_ofNode h hn hkind .disconnected hnone
    · exact Nat.not_lt.mp fun hlt => not_in_ofNode h hn (hc ▸ by decide) (.repeatedOutcome b)
        ⟨hc, hb, hlt⟩
    · exact Nat.not_lt.mp fun hlt => not_in_ofNode h hn (hl ▸ by decide) .repeatedBody ⟨hl, hlt⟩

theorem validate_eq_nil_iff_sound : g.validate = [] ↔ g.Sound := by
  calc g.validate = []
      ↔ g.violations = [] := by
        rw [← List.map_eq_nil_iff (f := some), ← map_error_violations, List.map_eq_nil_iff]
    _ ↔ ∀ v : Violation, ¬ v.In g := by
        rw [List.eq_nil_iff_forall_not_mem]
        exact forall_congr' fun v => not_congr mem_violations
    _ ↔ g.Sound := sound_iff.symm

/-- The errors at a place are what is reported of the node there. -/
theorem errorsAt_eq {k : Nat} {n : Node} (h : g.nodes[k]? = some n) :
    g.errorsAt k = n.errors g.structuralEdges := by
  have hnodes : (g.nodes.zipIdx.flatMap g.nodeViolations).filter (·.place? == some k) =
      g.nodeViolations (n, k) := by
    refine filter_flatMap_zipIdx h (fun v hv => ?_) fun q hq v hv => ?_
    · obtain ⟨flaw, -, rfl⟩ := List.mem_map.mp hv
      simp [Violation.place?]
    · obtain ⟨flaw, -, rfl⟩ := List.mem_map.mp hv
      simp [Violation.place?, hq]
  have hends : (g.structuralEdges.zipIdx.flatMap g.endViolations).filter
      (·.place? == some k) = [] := by
    refine List.filter_eq_nil_iff.mpr fun v hv => ?_
    obtain ⟨p, -, hp⟩ := List.mem_flatMap.mp hv
    obtain ⟨side, -, rfl⟩ := mem_endViolations.mp hp
    simp [Violation.place?]
  have hentry : (if g.nodes.any (·.isEntry) then [] else [Violation.noEntry]).filter
      (·.place? == some k) = [] := by
    split <;> rfl
  rw [errorsAt, violations, List.filter_append, List.filter_append, hentry, hends, hnodes,
    List.append_nil, List.nil_append, nodeViolations, Node.errors_eq, List.filterMap_map,
    ← List.filterMap_eq_map]
  refine List.filterMap_congr fun flaw _ => ?_
  simp [Violation.error?, h]

/-- The check finds nothing if and only if the flow is sound. It says as many things as there are
violations, one of each, which is shown at the node that is violated if there is one. The errors of a
node are the same in any two flows that have it, with the same structural edges at its id. -/
theorem validate_exact (g : Graph) :
    (g.validate = [] ↔ g.Sound) ∧
      g.violations.Nodup ∧ (∀ v, v ∈ g.violations ↔ v.In g) ∧
      List.Forall₂ (fun v error => v.error? g = some error ∧
        error.node? = (v.place?.bind (g.nodes[·]?)).map (·.id)) g.violations g.validate ∧
      ∀ (g' : Graph) (k k' : Nat) (n : Node), g.nodes[k]? = some n → g'.nodes[k']? = some n →
        (g.touching n.id).Perm (g'.touching n.id) → g.errorsAt k = g'.errorsAt k' := by
  refine ⟨validate_eq_nil_iff_sound, g.nodup_violations, fun v => mem_violations, ?_, ?_⟩
  · have hreported : List.Forall₂ (fun v error => v.error? g = some error)
        g.violations g.validate := by
      have heq := List.forall₂_eq_eq_eq (α := Option FlowError) ▸ map_error_violations g
      exact List.forall₂_map_right_iff.mp (List.forall₂_map_left_iff.mp heq)
    refine hreported.imp fun v error h => ⟨h, ?_⟩
    cases v with
    | noEntry =>
      cases h
      rfl
    | missingEnd i side =>
      obtain ⟨e, -, rfl⟩ := Option.map_eq_some_iff.mp h
      rfl
    | ofNode k flaw =>
      obtain ⟨n, hn, rfl⟩ := Option.map_eq_some_iff.mp h
      simp [Violation.place?, hn, Flaw.node?_error]
  · intro g' k k' n hk hk' hsame
    rw [errorsAt_eq hk, errorsAt_eq hk', Node.errors_eq, Node.errors_eq, Node.flaws_congr hsame]

/-- A loop with two edges to its body, a pause without a length, which leads to no node. -/
def crooked : Graph :=
  ⟨[⟨"node_1", .loop, "forEach", [], .zero, [], [], []⟩,
    ⟨"node_2", .action, "wait", [("ms", .str "1")], .zero, [], [], []⟩],
   [.structural "node_1" "node_2" .body, .structural "node_2" "node_9" .none,
    .structural "node_1" "node_2" .body]⟩

/-- The pause of the crooked flow in another flow. -/
def crookedElsewhere : Graph :=
  ⟨[⟨"node_2", .action, "wait", [("ms", .str "1")], .zero, [], [], []⟩,
    ⟨"node_9", .entry, Catalog.capabilityType, [], .zero, [], [], []⟩],
   [.data "node_9" "node_2" "x", .structural "node_1" "node_2" .body,
    .structural "node_1" "node_2" .body, .structural "node_2" "node_9" .none]⟩

theorem validate_exact_crooked :
    crooked.validate = [.noEntry, .missingEnd "edge_node_2_node_9" "node_9", .repeatedBody "node_1",
      .missingField "node_2" ⟨"ms", .number⟩] ∧
      crookedElsewhere.validate = [.missingEnd "edge_node_1_body_node_2" "node_1",
        .missingEnd "edge_node_1_body_node_2" "node_1",
        .missingField "node_2" ⟨"ms", .number⟩] ∧
      crooked.errorsAt 1 = crookedElsewhere.errorsAt 0 :=
  ⟨by decide, by decide, (validate_exact crooked).2.2.2.2 crookedElsewhere 1 0 _ rfl rfl (by decide)⟩

end Graph

end ScriptFlow
