import ScriptFlow.Proofs.Drawn

/-! A drawn flow runs as its script does. The numbers that an execution of the script visits are the
nodes of a walk from the entry until the flow goes nowhere, and every such walk is an execution. -/

namespace ScriptFlow

/-- An execution of actions, the first with the number `n`, and the numbers that it visits. -/
inductive Executes : Nat → List Action → List Nat → Prop
  | done {n : Nat} : Executes n [] []
  | leaf {n : Nat} {type : String} {fields : Fields} {as : List Action} {vs : List Nat} :
      Executes (n + 1) as vs → Executes n (.leaf type fields :: as) (n :: vs)
  | whenTrue {n : Nat} {condition : Option Json} {extra : Fields}
      {thenBody elseBody as : List Action} {us vs : List Nat} :
      Executes (n + 1) thenBody us →
      Executes (n + (1 + Action.listSize thenBody + Action.listSize elseBody)) as vs →
      Executes n (.branch condition extra thenBody elseBody :: as) (n :: (us ++ vs))
  | whenFalse {n : Nat} {condition : Option Json} {extra : Fields}
      {thenBody elseBody as : List Action} {us vs : List Nat} :
      Executes (n + 1 + Action.listSize thenBody) elseBody us →
      Executes (n + (1 + Action.listSize thenBody + Action.listSize elseBody)) as vs →
      Executes n (.branch condition extra thenBody elseBody :: as) (n :: (us ++ vs))
  | leave {n : Nat} {head : LoopHead} {extra : Fields} {body as : List Action} {vs : List Nat} :
      Executes (n + (1 + Action.listSize body)) as vs →
      Executes n (.loop head extra body :: as) (n :: vs)
  | again {n : Nat} {head : LoopHead} {extra : Fields} {body as : List Action} {us vs : List Nat} :
      body ≠ [] → Executes (n + 1) body us → Executes n (.loop head extra body :: as) vs →
      Executes n (.loop head extra body :: as) (n :: (us ++ vs))

/-- An edge along which a flow goes on after an action. -/
def Edge.isExit (e : Edge) : Bool :=
  e.isStructural && (e.branch == .none || e.branch == .loopBack)

namespace Graph

/-- A structural edge with a tag that leaves a node. -/
structure Tagged (g : Graph) (id : String) (b : Branch) (e : Edge) : Prop where
  mem : e ∈ g.edges
  isStructural : e.isStructural
  source : e.source = id
  branch : e.branch = b

/-- Where the exit of a node leads, if it has one. -/
inductive Exits (g : Graph) (id : String) : Option String → Prop
  | along {e : Edge} : e ∈ g.edges → e.source = id → e.isExit → Exits g id (some e.target)
  | nowhere : (∀ e ∈ g.edges, e.source = id → ¬ e.isExit) → Exits g id none

/-- Along an edge with a tag, or along the exit if there is none. -/
def Enters (g : Graph) (id : String) (b : Branch) (next : Option String) : Prop :=
  (∃ e, g.Tagged id b e ∧ next = some e.target) ∨ (∀ e, ¬ g.Tagged id b e) ∧ g.Exits id next

/-- Where a walk may go from a node. A condition has two outcomes, and a loop is entered or left. -/
def Goes (g : Graph) (n : Node) (next : Option String) : Prop :=
  match n.kind with
  | .entry | .action => g.Exits n.id next
  | .condition => g.Enters n.id .whenTrue next ∨ g.Enters n.id .whenFalse next
  | .loop => (∃ e, g.Tagged n.id .body e ∧ next = some e.target) ∨ g.Exits n.id next

/-- A complete walk and the ids of its nodes. -/
inductive Walks (g : Graph) : Option String → List String → Prop
  | nowhere : Walks g none []
  | visit {n : Node} {next : Option String} {ids : List String} : n ∈ g.nodes → g.Goes n next →
      Walks g next ids → Walks g (some n.id) (n.id :: ids)

end Graph

namespace Onward

/-- The id of the node where the flow goes on. -/
def id? (stem : String) : Onward → Option String
  | stops => none
  | goesTo m => some (nodeId stem m)
  | backTo m => some (nodeId stem m)

theorem some_eq_id? {stem id : String} (k : Onward) (n : Nat) :
    some id = k.id? stem ↔ ∃ l ∈ k.links n, id = nodeId stem l.target := by
  cases k <;> simp [id?, links]

theorem none_eq_id? {stem : String} (k : Onward) (n : Nat) :
    none = k.id? stem ↔ k.links n = [] := by
  cases k <;> simp [id?, links]

end Onward

namespace Station

/-- Where the flow may go from a station. -/
def nexts (s : Station) : List Onward :=
  match s.action? with
  | some (.branch _ _ thenBody elseBody) =>
    [s.onward.before (s.number + 1) thenBody,
      s.onward.before (s.number + 1 + Action.listSize thenBody) elseBody]
  | some (.loop _ _ body) => [s.onward.before (s.number + 1) body, s.onward]
  | some (.leaf ..) | none => [s.onward]

/-- The flow may go on from the station itself, since it has no branches or one that is empty. -/
def Passes (s : Station) : Prop :=
  match s.action? with
  | some (.branch _ _ thenBody elseBody) => thenBody = [] ∨ elseBody = []
  | _ => True

end Station

section

variable {stem : String} {d : Document} {g : Graph} {s : Station} {next : Option String}

/-- The links that go on from a station itself. -/
theorem Station.exit_links {l : Link} :
    l ∈ s.links ∧ (l.branch = .none ∨ l.branch = .loopBack) ↔
      s.Passes ∧ l ∈ s.onward.links s.number := by
  have honward : l ∈ s.onward.links s.number → l.branch = .none ∨ l.branch = .loopBack := by
    intro h
    rcases (Onward.mem_links.mp h).2 with h | h
    · exact Or.inl h.1
    · exact Or.inr h.1
  obtain ⟨n, a?, loop?, k⟩ := s
  rcases a? with _ | a
  · exact ⟨fun h => ⟨trivial, h.1⟩, fun h => ⟨h.2, honward h.2⟩⟩
  cases a with
  | leaf => exact ⟨fun h => ⟨trivial, h.1⟩, fun h => ⟨h.2, honward h.2⟩⟩
  | branch condition extra thenBody elseBody =>
    have hp : (thenBody.isEmpty || elseBody.isEmpty) = true ↔ thenBody = [] ∨ elseBody = [] := by
      simp
    simp only [links, Passes, List.mem_append, Action.mem_entryLink, hp]
    constructor
    · intro hx
      rcases hx with ⟨hl | ⟨-, rfl⟩ | ⟨-, rfl⟩, hb⟩
      · split at hl
        · exact ⟨‹_›, hl⟩
        · exact absurd hl List.not_mem_nil
      · simp at hb
      · simp at hb
    · intro hx
      obtain ⟨hp, hl⟩ := hx
      exact ⟨Or.inl (by rwa [if_pos hp]), honward hl⟩
  | loop head extra body =>
    simp only [links, Passes, List.mem_append, Action.mem_entryLink, true_and]
    constructor
    · intro hx
      rcases hx with ⟨hl | ⟨-, rfl⟩, hb⟩
      · exact hl
      · simp at hb
    · intro hl
      exact ⟨Or.inl hl, honward hl⟩

theorem isExit_edge {l : Link} :
    (l.edge stem).isExit ↔ l.branch = .none ∨ l.branch = .loopBack := by
  simp [Edge.isExit, Link.edge, Edge.structural, Edge.isStructural]

/-- The exit of a station leads where the flow goes on. -/
theorem exits_iff (h : d.draw stem = .ok g) (hs : s ∈ d.stations) (hp : s.Passes) :
    g.Exits (nodeId stem s.number) next ↔ next = s.onward.id? stem := by
  have hexit : ∀ {e : Edge}, e.source = nodeId stem s.number → (e ∈ g.edges ∧ e.isExit ↔
      ∃ l ∈ s.onward.links s.number, l.edge stem = e) := by
    intro e hsource
    rw [mem_edges_of_station h hs hsource]
    constructor
    · intro hm
      obtain ⟨⟨l, hl, rfl⟩, he⟩ := hm
      exact ⟨l, (Station.exit_links.mp ⟨hl, isExit_edge.mp he⟩).2, rfl⟩
    · intro hm
      obtain ⟨l, hl, rfl⟩ := hm
      obtain ⟨hm, hb⟩ := Station.exit_links.mpr ⟨hp, hl⟩
      exact ⟨⟨l, hm, rfl⟩, isExit_edge.mpr hb⟩
  have hsource : ∀ {l : Link}, l ∈ s.onward.links s.number →
      (l.edge stem).source = nodeId stem s.number :=
    fun hl => congrArg (nodeId stem) (Onward.source_of_mem_links hl)
  constructor
  · intro hex
    rcases hex with ⟨he, hfrom, hx⟩ | hno
    · obtain ⟨l, hl, rfl⟩ := (hexit hfrom).mp ⟨he, hx⟩
      exact (s.onward.some_eq_id? s.number).mpr ⟨l, hl, rfl⟩
    · refine (s.onward.none_eq_id? s.number).mpr (List.eq_nil_iff_forall_not_mem.mpr ?_)
      intro l hl
      obtain ⟨he, hx⟩ := (hexit (hsource hl)).mpr ⟨l, hl, rfl⟩
      exact hno _ he (hsource hl) hx
  · intro hnext
    cases next with
    | none =>
      refine .nowhere ?_
      intro e he hfrom hx
      obtain ⟨l, hl, -⟩ := (hexit hfrom).mp ⟨he, hx⟩
      rw [(s.onward.none_eq_id? s.number).mp hnext] at hl
      exact absurd hl List.not_mem_nil
    | some id =>
      obtain ⟨l, hl, rfl⟩ := (s.onward.some_eq_id? s.number).mp hnext
      obtain ⟨he, hx⟩ := (hexit (hsource hl)).mpr ⟨l, hl, rfl⟩
      exact .along he (hsource hl) hx

theorem tagged_iff (h : d.draw stem = .ok g) (hs : s ∈ d.stations) {b : Branch} {e : Edge} :
    g.Tagged (nodeId stem s.number) b e ↔ ∃ l, (l ∈ s.links ∧ l.branch = b) ∧ l.edge stem = e := by
  constructor
  · intro hx
    obtain ⟨he, -, hsource, hb⟩ := hx
    obtain ⟨l, hl, rfl⟩ := (mem_edges_of_station h hs hsource).mp he
    exact ⟨l, ⟨hl, hb⟩, rfl⟩
  · intro hx
    obtain ⟨l, ⟨hl, hb⟩, rfl⟩ := hx
    have hsource := congrArg (nodeId stem) (Station.source_of_mem_links hl)
    exact ⟨(mem_edges_of_station h hs hsource).mpr ⟨l, hl, rfl⟩, rfl, hsource, hb⟩

theorem enters_iff (h : d.draw stem = .ok g) (hs : s ∈ d.stations) {b : Branch} {first : Nat}
    {body : List Action}
    (hlinks : ∀ l, l ∈ s.links ∧ l.branch = b ↔ body ≠ [] ∧ l = ⟨s.number, first, b⟩)
    (hp : body = [] → s.Passes) :
    g.Enters (nodeId stem s.number) b next ↔ next = (s.onward.before first body).id? stem := by
  unfold Graph.Enters
  simp only [tagged_iff h hs, hlinks]
  cases body with
  | nil => simp [exits_iff h hs (hp rfl)]
  | cons a as => simp [Link.edge, Edge.structural, Onward.id?]

/-- Where a walk may go from the node of a station. -/
theorem goes_iff (h : d.draw stem = .ok g) (hs : s ∈ d.stations) {n : Node}
    (hid : n.id = nodeId stem s.number) (hkind : n.kind = s.kind) :
    g.Goes n next ↔ ∃ k ∈ s.nexts, next = k.id? stem := by
  obtain ⟨m, a?, loop?, k⟩ := s
  unfold Graph.Goes
  rw [hid, hkind]
  rcases a? with _ | a
  · simpa [Station.kind, Station.nexts] using exits_iff h hs trivial
  cases a with
  | leaf => simpa [Station.kind, Station.nexts, Action.kind] using exits_iff h hs trivial
  | branch condition extra thenBody elseBody =>
    simp only [Station.kind, Station.nexts, Option.elim, Action.kind, List.mem_cons,
      List.not_mem_nil, or_false, exists_eq_or_imp, exists_eq_left]
    exact or_congr (enters_iff h hs (fun _ => Station.whenTrue_links) Or.inl)
      (enters_iff h hs (fun _ => Station.whenFalse_links) Or.inr)
  | loop head extra body =>
    simp only [Station.kind, Station.nexts, Option.elim, Action.kind, List.mem_cons,
      List.not_mem_nil, or_false, exists_eq_or_imp, exists_eq_left]
    rw [← exits_iff h hs trivial,
      ← enters_iff h hs (fun _ => Station.body_links) (fun _ => trivial)]
    constructor
    · intro hgo
      rcases hgo with ht | hx
      · exact Or.inl (Or.inl ht)
      · exact Or.inr hx
    · intro hgo
      rcases hgo with (ht | ⟨-, hx⟩) | hx
      · exact Or.inl ht
      · exact Or.inr hx
      · exact Or.inr hx

/-- A walk from the node of a station visits it and goes on from there. -/
theorem walks_iff (h : d.draw stem = .ok g) (hs : s ∈ d.stations) {ids : List String} :
    g.Walks (some (nodeId stem s.number)) ids ↔
      ∃ k ∈ s.nexts, ∃ rest, g.Walks (k.id? stem) rest ∧ ids = nodeId stem s.number :: rest := by
  obtain ⟨n, hn, hid, hkind⟩ := exists_node h hs
  constructor
  · intro hw
    generalize hstart : some (nodeId stem s.number) = start at hw
    cases hw with
    | nowhere => cases hstart
    | visit hm hgo hrest =>
      have he := Graph.node_eq (nodup_ids_of_draw h) hm hn
        ((Option.some.inj hstart).symm.trans hid.symm)
      rw [he] at hgo ⊢
      obtain ⟨k, hk, rfl⟩ := (goes_iff h hs hid hkind).mp hgo
      exact ⟨k, hk, _, hrest, by rw [hid]⟩
  · intro hx
    obtain ⟨k, hk, rest, hrest, rfl⟩ := hx
    rw [← hid]
    exact .visit hn ((goes_iff h hs hid hkind).mpr ⟨k, hk, rfl⟩) hrest

/-- An execution of actions is walked, and then what comes after them. -/
theorem walks_of_executes (h : d.draw stem = .ok g) {n : Nat} {as : List Action} {vs : List Nat}
    (hx : Executes n as vs) {loop? : Option Nat} {k : Onward} {rest : List String}
    (hd : d.Has loop? k n as) (hrest : g.Walks (k.id? stem) rest) :
    g.Walks ((k.before n as).id? stem) (vs.map (nodeId stem) ++ rest) := by
  induction hx generalizing loop? k rest with
  | done => exact hrest
  | leaf _ ih =>
    exact (walks_iff h hd.station).mpr ⟨_, List.mem_singleton_self _, _, ih hd.tail hrest, rfl⟩
  | whenTrue _ _ ihbody ih =>
    have hbody := ihbody hd.inThen (ih hd.tail hrest)
    refine (walks_iff h hd.station).mpr ⟨_, List.mem_cons_self, _, hbody, ?_⟩
    rw [List.map_cons, List.map_append, List.cons_append, List.append_assoc]
  | whenFalse _ _ ihbody ih =>
    have hbody := ihbody hd.inElse (ih hd.tail hrest)
    refine (walks_iff h hd.station).mpr
      ⟨_, List.mem_cons_of_mem _ List.mem_cons_self, _, hbody, ?_⟩
    rw [List.map_cons, List.map_append, List.cons_append, List.append_assoc]
  | leave _ ih =>
    exact (walks_iff h hd.station).mpr
      ⟨_, List.mem_cons_of_mem _ List.mem_cons_self, _, ih hd.tail hrest, rfl⟩
  | @again n _ _ body _ us vs hne _ _ ihbody ih =>
    -- after the body the flow is back at the loop
    have hback : g.Walks ((Onward.backTo n).id? stem) (vs.map (nodeId stem) ++ rest) := ih hd hrest
    have hbody := ihbody hd.inBody hback
    cases body with
    | nil => exact absurd rfl hne
    | cons b bs =>
      refine (walks_iff h hd.station).mpr ⟨_, List.mem_cons_self, _, hbody, ?_⟩
      rw [List.map_cons, List.map_append, List.cons_append, List.append_assoc]

/-- A walk from actions on executes them, and walks on from what comes after them. -/
theorem executes_of_walks (h : d.draw stem = .ok g) {loop? : Option Nat} {k : Onward} {n : Nat}
    {as : List Action} {ids : List String} (hd : d.Has loop? k n as)
    (hw : g.Walks ((k.before n as).id? stem) ids) :
    ∃ vs rest, Executes n as vs ∧ g.Walks (k.id? stem) rest ∧
      ids = vs.map (nodeId stem) ++ rest := by
  induction hlen : ids.length using Nat.strongRecOn generalizing loop? k n as ids with
  | ind len ih =>
    cases as with
    | nil => exact ⟨[], ids, .done, hw, rfl⟩
    | cons a as =>
      obtain ⟨k', hk', ids, hids, rfl⟩ := (walks_iff h hd.station).mp hw
      rw [List.length_cons] at hlen
      have htail : ∀ {rest}, rest.length ≤ ids.length →
          g.Walks ((k.before (n + a.size) as).id? stem) rest →
          ∃ vs rest', Executes (n + a.size) as vs ∧ g.Walks (k.id? stem) rest' ∧
            rest = vs.map (nodeId stem) ++ rest' :=
        fun hle hr => ih _ (by omega) hd.tail hr rfl
      cases a with
      | leaf =>
        rw [List.mem_singleton.mp hk'] at hids
        obtain ⟨vs, rest, hx, hr, rfl⟩ := htail (Nat.le_refl _) hids
        exact ⟨n :: vs, rest, .leaf hx, hr, rfl⟩
      | branch condition extra thenBody elseBody =>
        simp only [Station.nexts, List.mem_cons, List.not_mem_nil, or_false] at hk'
        rcases hk' with rfl | rfl
        · obtain ⟨us, after, hbody, hafter, rfl⟩ := ih _ (by omega) hd.inThen hids rfl
          obtain ⟨vs, rest, hx, hr, rfl⟩ := htail (by simp) hafter
          exact ⟨n :: (us ++ vs), rest, .whenTrue hbody hx, hr, by simp⟩
        · obtain ⟨us, after, hbody, hafter, rfl⟩ := ih _ (by omega) hd.inElse hids rfl
          obtain ⟨vs, rest, hx, hr, rfl⟩ := htail (by simp) hafter
          exact ⟨n :: (us ++ vs), rest, .whenFalse hbody hx, hr, by simp⟩
      | loop head extra body =>
        have hleave : g.Walks ((k.before (n + (1 + Action.listSize body)) as).id? stem) ids →
            ∃ vs rest, Executes n (.loop head extra body :: as) vs ∧ g.Walks (k.id? stem) rest ∧
              nodeId stem n :: ids = vs.map (nodeId stem) ++ rest := by
          intro hids
          obtain ⟨vs, rest, hx, hr, rfl⟩ := htail (Nat.le_refl _) hids
          exact ⟨n :: vs, rest, .leave hx, hr, rfl⟩
        simp only [Station.nexts, List.mem_cons, List.not_mem_nil, or_false] at hk'
        rcases hk' with rfl | rfl
        · cases body with
          | nil => exact hleave hids
          | cons b bs =>
            obtain ⟨us, after, hbody, hafter, rfl⟩ := ih _ (by omega) hd.inBody hids rfl
            -- the walk is back at the loop
            have hback : g.Walks ((k.before n (.loop head extra (b :: bs) :: as)).id? stem) after :=
              hafter
            obtain ⟨vs, rest, hx, hr, rfl⟩ := ih _ (by simp at hlen; omega) hd hback rfl
            exact ⟨n :: (us ++ vs), rest, .again (List.cons_ne_nil b bs) hbody hx, hr, by simp⟩
        · exact hleave hids

/-- No node has two exits. -/
theorem exits_length_le_one (h : d.draw stem = .ok g) (id : String) :
    ((g.outgoing id).filter Edge.isExit).length ≤ 1 := by
  have hports : ∀ e ∈ (g.outgoing id).filter Edge.isExit, e.port = (id, .none) := by
    intro e he
    simp only [Graph.outgoing, List.mem_filter, beq_iff_eq, Edge.isExit, Bool.and_eq_true,
      Bool.or_eq_true] at he
    obtain ⟨⟨-, rfl⟩, -, hb | hb⟩ := he <;> simp [Edge.port, hb]
  have hnodup : (((g.outgoing id).filter Edge.isExit).map Edge.port).Nodup :=
    (nodup_edge_ports h).sublist
      ((List.filter_sublist.trans List.filter_sublist).map Edge.port)
  rw [List.map_congr_left hports, List.map_const'] at hnodup
  exact List.nodup_replicate.mp hnodup

/-- The complete walks from the entry of a capability are the executions of its actions. -/
theorem walks_iff_executes (h : d.draw stem = .ok g) {p : Nat × Capability} (hp : p ∈ d.placed) :
    (∀ n ∈ g.nodes, ((g.outgoing n.id).filter Edge.isExit).length ≤ 1) ∧
      ∀ ids, g.Walks (some (nodeId stem p.1)) ids ↔
        ∃ vs, Executes (p.1 + 1) p.2.actions vs ∧ ids = (p.1 :: vs).map (nodeId stem) := by
  refine ⟨fun n _ => exits_length_le_one h n.id, fun ids => ?_⟩
  have hentry := Document.station_of_placed hp
  have hd := Document.has_of_placed hp
  constructor
  · intro hw
    obtain ⟨k, hk, ids, hids, rfl⟩ := (walks_iff h hentry).mp hw
    rw [List.mem_singleton.mp hk] at hids
    obtain ⟨vs, rest, hx, hr, rfl⟩ := executes_of_walks h hd hids
    cases hr
    exact ⟨vs, hx, by simp⟩
  · intro hv
    obtain ⟨vs, hx, rfl⟩ := hv
    have hw := walks_of_executes h hx hd Graph.Walks.nowhere
    exact (walks_iff h hentry).mpr ⟨_, List.mem_singleton_self _, _, hw, by simp⟩

end

theorem walks_iff_executes_sample : ∃ g c, Document.sample.draw "node" = .ok g ∧
    (1, c) ∈ Document.sample.placed ∧ ∀ ids, g.Walks (some (nodeId "node" 1)) ids ↔
      ∃ vs, Executes 2 c.actions vs ∧ ids = (1 :: vs).map (nodeId "node") := by
  obtain ⟨g, hg⟩ : ∃ g, Document.sample.draw "node" = .ok g := ⟨_, rfl⟩
  obtain ⟨c, hc⟩ : ∃ c, (1, c) ∈ Document.sample.placed := ⟨_, List.mem_singleton_self _⟩
  exact ⟨g, c, hg, hc, (walks_iff_executes hg hc).2⟩

end ScriptFlow
