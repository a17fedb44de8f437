import ScriptFlow.Script.Outline
import Mathlib.Data.List.Nodup

/-! The outline of a document, told by what comes after an action. The outline collects the exits of
an action and links them when the next action is met; here each action is told beforehand where the
flow goes on after it. Both ways give the same links, and in this form the links that leave a number
are read off the action that stands there. -/

namespace ScriptFlow

/-- Where the flow goes on after an action: nowhere, at a later action, or at the loop around. -/
inductive Onward where
  | stops
  | goesTo (target : Nat)
  | backTo (loop : Nat)
deriving DecidableEq

namespace Onward

/-- The link along which the flow leaves the number `n`. -/
def links (k : Onward) (n : Nat) : List Link :=
  match k with
  | stops => []
  | goesTo m => [⟨n, m, .none⟩]
  | backTo m => [⟨n, m, .loopBack⟩]

/-- Where the flow goes on when the actions `as`, numbered from `n`, come first. -/
def before (k : Onward) (n : Nat) (as : List Action) : Onward :=
  if as.isEmpty then k else goesTo n

@[simp] theorem before_nil (k : Onward) (n : Nat) : k.before n [] = k := rfl

@[simp] theorem before_cons (k : Onward) (n : Nat) (a : Action) (as : List Action) :
    k.before n (a :: as) = goesTo n := rfl

theorem mem_links {k : Onward} {n : Nat} {l : Link} :
    l ∈ k.links n ↔ l.source = n ∧ (l.branch = .none ∧ k = .goesTo l.target ∨
      l.branch = .loopBack ∧ k = .backTo l.target) := by
  obtain ⟨source, target, b⟩ := l
  cases k with
  | stops => simp [links]
  | goesTo m =>
    simp only [links, List.mem_singleton, Link.mk.injEq, goesTo.injEq]
    grind
  | backTo m =>
    simp only [links, List.mem_singleton, Link.mk.injEq, backTo.injEq]
    grind

theorem source_of_mem_links {k : Onward} {n : Nat} {l : Link} (h : l ∈ k.links n) :
    l.source = n :=
  (mem_links.mp h).1

theorem branch_ne_of_mem_links {k : Onward} {n : Nat} {l : Link} (hl : l ∈ k.links n) :
    l.branch ≠ .whenTrue ∧ l.branch ≠ .whenFalse ∧ l.branch ≠ .body := by
  rcases (mem_links.mp hl).2 with ⟨hb, -⟩ | ⟨hb, -⟩ <;> simp [hb]

theorem flatMap_goesTo (fringe : List Nat) (n : Nat) :
    fringe.flatMap (goesTo n).links = fringe.map (⟨·, n, .none⟩) :=
  List.map_eq_flatMap.symm

theorem flatMap_backTo (fringe : List Nat) (n : Nat) :
    fringe.flatMap (backTo n).links = fringe.map (⟨·, n, .loopBack⟩) :=
  List.map_eq_flatMap.symm

theorem flatMap_stops (fringe : List Nat) : fringe.flatMap stops.links = [] := by
  simp [links]

end Onward

/-- A number of an outline, with what stands there and how the flow goes on after it. -/
structure Station where
  number : Nat
  /-- Nothing stands for the entry of a capability. -/
  action? : Option Action
  /-- The number of the nearest loop around it. -/
  loop? : Option Nat
  onward : Onward

namespace Station

/-- The links that leave a station. -/
def links (s : Station) : List Link :=
  match s.action? with
  | some (.branch _ _ thenBody elseBody) =>
    (if thenBody.isEmpty || elseBody.isEmpty then s.onward.links s.number else []) ++
      (Action.entryLink s.number .whenTrue (s.number + 1) thenBody ++
        Action.entryLink s.number .whenFalse (s.number + 1 + Action.listSize thenBody) elseBody)
  | some (.loop _ _ body) =>
    s.onward.links s.number ++ Action.entryLink s.number .body (s.number + 1) body
  | some (.leaf ..) | none => s.onward.links s.number

end Station

namespace Action

mutual
/-- The stations of an action and of the actions in it, when the flow goes on at `k`. -/
def stations (loop? : Option Nat) (k : Onward) (n : Nat) : Action → List Station
  | leaf t fields => [⟨n, some (leaf t fields), loop?, k⟩]
  | branch condition extra thenBody elseBody =>
    ⟨n, some (branch condition extra thenBody elseBody), loop?, k⟩ ::
      (listStations loop? k (n + 1) thenBody ++
        listStations loop? k (n + 1 + listSize thenBody) elseBody)
  | loop head extra body =>
    ⟨n, some (loop head extra body), loop?, k⟩ ::
      listStations (some n) (.backTo n) (n + 1) body

def listStations (loop? : Option Nat) (k : Onward) (n : Nat) :
    List Action → List Station
  | [] => []
  | a :: as =>
    a.stations loop? (k.before (n + a.size) as) n ++
      listStations loop? k (n + a.size) as
end

end Action

namespace Capability

def stations (n : Nat) (c : Capability) : List Station :=
  ⟨n, none, none, Onward.stops.before (n + 1) c.actions⟩ ::
    Action.listStations none .stops (n + 1) c.actions

end Capability

def Document.stations (d : Document) : List Station :=
  collect Capability.stations 1 d.capabilities

namespace Action

theorem size_pos (a : Action) : 0 < a.size := by
  cases a <;> simp only [size] <;> omega

theorem mem_entryLink {n first : Nat} {tag : Branch} {body : List Action} {l : Link} :
    l ∈ entryLink n tag first body ↔ body ≠ [] ∧ l = ⟨n, first, tag⟩ := by
  cases body <;> simp [entryLink]

/-- An empty branch exits at the `if` itself, once also when both are empty. -/
theorem exits_branch_perm (n : Nat) (condition : Option Json) (extra : Fields)
    (thenBody elseBody : List Action) :
    (exits n (branch condition extra thenBody elseBody)).Perm
      ((if thenBody.isEmpty || elseBody.isEmpty then [n] else []) ++
        (listExits [] (n + 1) thenBody ++
          listExits [] (n + 1 + listSize thenBody) elseBody)) := by
  cases thenBody with
  | nil => cases elseBody <;> simp [exits, listExits]
  | cons t ts =>
    cases elseBody with
    | nil => simp [exits, listExits]
    | cons e es => simp [exits, listExits]

mutual
/-- The links inside an action and those of its exits are the links of its stations. -/
theorem links_append_exits (loop? : Option Nat) (k : Onward) (n : Nat) : (a : Action) →
    (a.links n ++ (a.exits n).flatMap k.links).Perm
      ((a.stations loop? k n).flatMap Station.links)
  | leaf .. => by simp [links, exits, stations, Station.links]
  | branch condition extra thenBody elseBody => by
    have ht := listLinks_append_exits loop? k [] (n + 1) thenBody
    have he := listLinks_append_exits loop? k [] (n + 1 + listSize thenBody) elseBody
    have hx := (exits_branch_perm n condition extra thenBody elseBody).flatMap_right k.links
    rw [List.perm_iff_count] at ht he hx ⊢
    intro l
    specialize ht l
    specialize he l
    specialize hx l
    simp only [links, stations, Station.links, List.count_append, List.flatMap_append,
      List.flatMap_cons, List.flatMap_nil, List.nil_append] at ht he hx ⊢
    by_cases hb : (thenBody.isEmpty || elseBody.isEmpty) = true
    · simp only [hb, if_true, List.flatMap_cons, List.flatMap_nil, List.append_nil] at hx ⊢
      omega
    · simp only [hb, if_false, Bool.false_eq_true, List.flatMap_nil, List.count_nil] at hx ⊢
      omega
  | loop _ _ body => by
    have hb := listLinks_append_exits (some n) (.backTo n) [] (n + 1) body
    rw [Onward.flatMap_backTo] at hb
    rw [List.perm_iff_count] at hb ⊢
    intro l
    specialize hb l
    simp only [links, exits, stations, Station.links, List.count_append, List.flatMap_nil,
      List.nil_append, List.flatMap_cons, List.append_nil] at hb ⊢
    omega

theorem listLinks_append_exits (loop? : Option Nat) (k : Onward) (fringe : List Nat) (n : Nat) :
    (as : List Action) →
    (listLinks fringe n as ++ (listExits fringe n as).flatMap k.links).Perm
      (fringe.flatMap (k.before n as).links ++
        (listStations loop? k n as).flatMap Station.links)
  | [] => by simp [listLinks, listExits, listStations]
  | a :: as => by
    have ha := links_append_exits loop? (k.before (n + a.size) as) n a
    have hs := listLinks_append_exits loop? k (a.exits n) (n + a.size) as
    rw [List.perm_iff_count] at ha hs ⊢
    intro l
    specialize ha l
    specialize hs l
    simp only [Onward.before_cons, Onward.flatMap_goesTo, listLinks, listExits, listStations,
      List.count_append, List.flatMap_append] at ha hs ⊢
    omega
end

end Action

theorem Capability.links_perm (n : Nat) (c : Capability) :
    (c.links n).Perm ((c.stations n).flatMap Station.links) := by
  have h := Action.listLinks_append_exits none .stops [n] (n + 1) c.actions
  rw [Onward.flatMap_stops, List.append_nil] at h
  simpa [links, stations, Station.links] using h

/-! The links that enter a branch or a body. -/

namespace Station

variable {n : Nat} {loop? : Option Nat} {k : Onward} {condition : Option Json} {extra : Fields}
  {thenBody elseBody : List Action} {l : Link}

theorem whenTrue_links :
    l ∈ links ⟨n, some (.branch condition extra thenBody elseBody), loop?, k⟩ ∧
      l.branch = .whenTrue ↔ thenBody ≠ [] ∧ l = ⟨n, n + 1, .whenTrue⟩ := by
  simp only [links, List.mem_append, Action.mem_entryLink]
  constructor
  · intro h
    rcases h with ⟨hl | ⟨hne, rfl⟩ | ⟨-, rfl⟩, hb⟩
    · split at hl
      · exact absurd hb (Onward.branch_ne_of_mem_links hl).1
      · exact absurd hl List.not_mem_nil
    · exact ⟨hne, rfl⟩
    · cases hb
  · intro h
    obtain ⟨hne, rfl⟩ := h
    exact ⟨Or.inr (Or.inl ⟨hne, rfl⟩), rfl⟩

theorem whenFalse_links :
    l ∈ links ⟨n, some (.branch condition extra thenBody elseBody), loop?, k⟩ ∧
      l.branch = .whenFalse ↔
        elseBody ≠ [] ∧ l = ⟨n, n + 1 + Action.listSize thenBody, .whenFalse⟩ := by
  simp only [links, List.mem_append, Action.mem_entryLink]
  constructor
  · intro h
    rcases h with ⟨hl | ⟨-, rfl⟩ | ⟨hne, rfl⟩, hb⟩
    · split at hl
      · exact absurd hb (Onward.branch_ne_of_mem_links hl).2.1
      · exact absurd hl List.not_mem_nil
    · cases hb
    · exact ⟨hne, rfl⟩
  · intro h
    obtain ⟨hne, rfl⟩ := h
    exact ⟨Or.inr (Or.inr ⟨hne, rfl⟩), rfl⟩

theorem body_links {head : LoopHead} {body : List Action} :
    l ∈ links ⟨n, some (.loop head extra body), loop?, k⟩ ∧ l.branch = .body ↔
      body ≠ [] ∧ l = ⟨n, n + 1, .body⟩ := by
  simp only [links, List.mem_append, Action.mem_entryLink]
  constructor
  · intro h
    rcases h with ⟨hl | ⟨hne, rfl⟩, hb⟩
    · exact absurd hb (Onward.branch_ne_of_mem_links hl).2.2
    · exact ⟨hne, rfl⟩
  · intro h
    obtain ⟨hne, rfl⟩ := h
    exact ⟨Or.inr ⟨hne, rfl⟩, rfl⟩

end Station

/-! Stations are numbered without a gap, and they are the items of the outline. -/

namespace Action

mutual
theorem number_stations (loop? : Option Nat) (k : Onward) (n : Nat) : (a : Action) →
    (a.stations loop? k n).map Station.number = List.range' n a.size
  | leaf .. => rfl
  | branch _ _ thenBody elseBody => by
    simp only [stations, List.map_cons, List.map_append, number_listStations, size]
    rw [List.range'_append_1, Nat.add_assoc, Nat.add_comm 1, List.range'_succ]
  | loop _ _ body => by
    simp only [stations, List.map_cons, number_listStations, size]
    rw [Nat.add_comm 1, List.range'_succ]

theorem number_listStations (loop? : Option Nat) (k : Onward) (n : Nat) : (as : List Action) →
    (listStations loop? k n as).map Station.number = List.range' n (listSize as)
  | [] => rfl
  | a :: as => by
    simp only [listStations, List.map_append, number_stations, number_listStations, listSize]
    rw [List.range'_append_1]
end

end Action

/-- The number of an item and the action that stands there. -/
def Item.numbered : Item → Nat × Option Action
  | capability n _ => (n, none)
  | action n a _ => (n, some a)

def Station.numbered (s : Station) : Nat × Option Action := (s.number, s.action?)

namespace Action

mutual
theorem numbered_items (loop? : Option Nat) (k : Onward) (n : Nat) (spot : Spot) : (a : Action) →
    (a.items n spot).map Item.numbered =
      (a.stations loop? k n).map Station.numbered
  | leaf .. => rfl
  | branch _ _ thenBody elseBody => by
    simp only [items, stations, List.map_cons, List.map_append]
    rw [numbered_listItems loop? k (n + 1) _ thenBody,
      numbered_listItems loop? k (n + 1 + listSize thenBody) _ elseBody]
    rfl
  | loop _ _ body => by
    simp only [items, stations, List.map_cons]
    rw [numbered_listItems (some n) (.backTo n) (n + 1) _ body]
    rfl

theorem numbered_listItems (loop? : Option Nat) (k : Onward) (n : Nat) (spot : Spot) :
    (as : List Action) →
    (listItems n spot as).map Item.numbered =
      (listStations loop? k n as).map Station.numbered
  | [] => rfl
  | a :: as => by
    simp only [listItems, listStations, List.map_append]
    rw [numbered_items loop? (k.before (n + a.size) as) n spot a,
      numbered_listItems loop? k (n + a.size) spot.next as]
end

end Action

namespace Capability

theorem number_stations (n : Nat) (c : Capability) :
    (c.stations n).map Station.number = List.range' n c.size := by
  simp only [stations, List.map_cons, Action.number_listStations, size]
  rw [Nat.add_comm 1, List.range'_succ]

theorem numbered_items (n : Nat) (c : Capability) :
    (c.items n).map Item.numbered = (c.stations n).map Station.numbered := by
  simp only [items, stations, List.map_cons]
  rw [Action.numbered_listItems none .stops]
  rfl

end Capability

namespace Document

section

variable {α β : Type}

theorem map_collect (f : α → β) (part : Nat → Capability → List α) (n : Nat)
    (cs : List Capability) :
    (collect part n cs).map f = collect (fun n c => (part n c).map f) n cs := by
  induction cs generalizing n with
  | nil => rfl
  | cons c cs ih => simp [collect, ih]

theorem filter_collect (q : α → Bool) (part : Nat → Capability → List α) (n : Nat)
    (cs : List Capability) :
    (collect part n cs).filter q = collect (fun n c => (part n c).filter q) n cs := by
  induction cs generalizing n with
  | nil => rfl
  | cons c cs ih => simp [collect, ih]

theorem mem_collect {part : Nat → Capability → List α} {n : Nat} {cs : List Capability} {x : α} :
    x ∈ collect part n cs ↔ ∃ p ∈ collect (fun n c => [(n, c)]) n cs, x ∈ part p.1 p.2 := by
  induction cs generalizing n with
  | nil => simp [collect]
  | cons c cs ih => simp [collect, ih]

end

/-- The capabilities with the numbers of their entries. -/
def placed (d : Document) : List (Nat × Capability) :=
  collect (fun n c => [(n, c)]) 1 d.capabilities

theorem map_placed (d : Document) : d.placed.map Prod.snd = d.capabilities := by
  have h : ∀ (n : Nat) (cs : List Capability),
      (collect (fun n c => [(n, c)]) n cs).map Prod.snd = cs := by
    intro n cs
    induction cs generalizing n with
    | nil => rfl
    | cons c cs ih => simp [collect, ih]
  exact h 1 d.capabilities

theorem mem_stations {d : Document} {s : Station} :
    s ∈ d.stations ↔ ∃ p ∈ d.placed, s ∈ p.2.stations p.1 :=
  mem_collect

theorem numbered_items (d : Document) :
    d.outline.items.map Item.numbered = d.stations.map Station.numbered := by
  simp only [outline, stations, map_collect]
  congr 1
  funext n c
  exact c.numbered_items n

theorem exists_station_of_item {d : Document} {i : Item} (hi : i ∈ d.outline.items) :
    ∃ s ∈ d.stations, s.numbered = i.numbered := by
  have hm : i.numbered ∈ d.outline.items.map Item.numbered := List.mem_map_of_mem hi
  rwa [d.numbered_items, List.mem_map] at hm

theorem number_collect_stations (n : Nat) (cs : List Capability) :
    (collect Capability.stations n cs).map Station.number =
      List.range' n (collect Capability.stations n cs).length := by
  induction cs generalizing n with
  | nil => rfl
  | cons c cs ih =>
    have hlen : (c.stations n).length = c.size := by
      rw [← List.length_map Station.number, c.number_stations, List.length_range']
    simp only [collect, List.map_append, List.length_append, ih, c.number_stations, hlen]
    rw [List.range'_append_1]

theorem number_stations (d : Document) :
    d.stations.map Station.number = List.range' 1 d.stations.length :=
  number_collect_stations 1 d.capabilities

theorem number_items (d : Document) :
    d.outline.items.map (fun i => i.numbered.1) = d.stations.map Station.number := by
  have hs := congrArg (List.map Prod.fst) d.numbered_items
  rwa [List.map_map, List.map_map] at hs

theorem nodup_number_stations (d : Document) : (d.stations.map Station.number).Nodup := by
  rw [number_stations]
  exact List.nodup_range'

theorem station_eq {d : Document} {s s' : Station} (hs : s ∈ d.stations) (hs' : s' ∈ d.stations)
    (h : s.number = s'.number) : s = s' :=
  List.inj_on_of_nodup_map d.nodup_number_stations hs hs' h

theorem collect_links_perm (n : Nat) (cs : List Capability) :
    (collect Capability.links n cs).Perm
      ((collect Capability.stations n cs).flatMap Station.links) := by
  induction cs generalizing n with
  | nil => rfl
  | cons c cs ih =>
    simp only [collect, List.flatMap_append]
    exact (c.links_perm n).append (ih (n + c.size))

theorem links_perm (d : Document) : d.outline.links.Perm (d.stations.flatMap Station.links) :=
  collect_links_perm 1 d.capabilities

theorem mem_links {d : Document} {l : Link} :
    l ∈ d.outline.links ↔ ∃ s ∈ d.stations, l ∈ s.links := by
  rw [d.links_perm.mem_iff, List.mem_flatMap]

end Document

/-! No way out of a number is taken twice. -/

/-- A number and a way out of it. A plain link and one back to a loop take the same way. -/
def Link.port (l : Link) : Nat × Branch :=
  (l.source, if l.branch = .loopBack then .none else l.branch)

namespace Station

theorem source_of_mem_links {s : Station} {l : Link} (h : l ∈ s.links) : l.source = s.number := by
  unfold links at h
  split at h
  · simp only [List.mem_append, Action.mem_entryLink] at h
    rcases h with h | ⟨-, rfl⟩ | ⟨-, rfl⟩
    · split at h
      · exact Onward.source_of_mem_links h
      · exact absurd h List.not_mem_nil
    · rfl
    · rfl
  · simp only [List.mem_append, Action.mem_entryLink] at h
    rcases h with h | ⟨-, rfl⟩
    · exact Onward.source_of_mem_links h
    · rfl
  · exact Onward.source_of_mem_links h
  · exact Onward.source_of_mem_links h

theorem nodup_ports_links (s : Station) : (s.links.map Link.port).Nodup := by
  obtain ⟨n, a, loop?, k⟩ := s
  unfold links
  split
  · next thenBody elseBody _ =>
    cases k <;> cases thenBody <;> cases elseBody <;>
      simp [Onward.links, Action.entryLink, Link.port]
  · next body _ => cases k <;> cases body <;> simp [Onward.links, Action.entryLink, Link.port]
  · cases k <;> simp [Onward.links]
  · cases k <;> simp [Onward.links]

theorem nodup_ports {ss : List Station} (h : (ss.map number).Nodup) :
    ((ss.flatMap links).map Link.port).Nodup := by
  induction ss with
  | nil => simp
  | cons s ss ih =>
    rw [List.map_cons, List.nodup_cons] at h
    rw [List.flatMap_cons, List.map_append, List.nodup_append]
    refine ⟨s.nodup_ports_links, ih h.2, ?_⟩
    intro p hp q hq hpq
    obtain ⟨l, hl, rfl⟩ := List.mem_map.mp hp
    obtain ⟨l', hl', rfl⟩ := List.mem_map.mp hq
    obtain ⟨s', hs', hl'⟩ := List.mem_flatMap.mp hl'
    have hn : s.number = s'.number := by
      rw [← source_of_mem_links hl, ← source_of_mem_links hl']
      exact congrArg Prod.fst hpq
    exact h.1 (hn ▸ List.mem_map_of_mem hs')

end Station

namespace Document

theorem nodup_ports (d : Document) : (d.outline.links.map Link.port).Nodup :=
  (d.links_perm.map Link.port).nodup_iff.mpr (Station.nodup_ports d.nodup_number_stations)

theorem nodup_links (d : Document) : d.outline.links.Nodup :=
  d.nodup_ports.of_map

theorem link_eq_of_port {d : Document} {l l' : Link} (hl : l ∈ d.outline.links)
    (hl' : l' ∈ d.outline.links) (h : l.port = l'.port) : l = l' :=
  List.inj_on_of_nodup_map d.nodup_ports hl hl' h

/-- The links of the outline that leave a station are its own. -/
theorem mem_links_of_station {d : Document} {s : Station} (hs : s ∈ d.stations) {l : Link}
    (hl : l.source = s.number) : l ∈ d.outline.links ↔ l ∈ s.links := by
  rw [mem_links]
  constructor
  · intro hx
    obtain ⟨s', hs', hl'⟩ := hx
    have hn : s'.number = s.number := (Station.source_of_mem_links hl').symm.trans hl
    rwa [← station_eq hs' hs hn]
  · intro h
    exact ⟨s, hs, h⟩

/-- The actions `as`, numbered from `n`, stand in a document, and the flow goes on at `k` after
them. -/
def Has (d : Document) (loop? : Option Nat) (k : Onward) (n : Nat) (as : List Action) : Prop :=
  ∀ s ∈ Action.listStations loop? k n as, s ∈ d.stations

/-- The station of the entry of a capability. -/
theorem station_of_placed {d : Document} {p : Nat × Capability} (hp : p ∈ d.placed) :
    ⟨p.1, none, none, Onward.stops.before (p.1 + 1) p.2.actions⟩ ∈ d.stations :=
  mem_stations.mpr ⟨p, hp, List.mem_cons_self⟩

theorem has_of_placed {d : Document} {p : Nat × Capability} (hp : p ∈ d.placed) :
    d.Has none .stops (p.1 + 1) p.2.actions :=
  fun _ hs => mem_stations.mpr ⟨p, hp, List.mem_cons_of_mem _ hs⟩

namespace Has

variable {d : Document} {loop? : Option Nat} {k : Onward} {n : Nat} {a : Action}
  {as thenBody elseBody body : List Action} {condition : Option Json} {extra : Fields}
  {head : LoopHead}

theorem station (h : d.Has loop? k n (a :: as)) :
    ⟨n, some a, loop?, k.before (n + a.size) as⟩ ∈ d.stations := by
  refine h _ (List.mem_append_left _ ?_)
  cases a <;> exact List.mem_cons_self

theorem tail (h : d.Has loop? k n (a :: as)) : d.Has loop? k (n + a.size) as :=
  fun s hs => h s (List.mem_append_right _ hs)

theorem inThen (h : d.Has loop? k n (.branch condition extra thenBody elseBody :: as)) :
    d.Has loop? (k.before (n + (1 + Action.listSize thenBody + Action.listSize elseBody)) as)
      (n + 1) thenBody :=
  fun s hs => h s (List.mem_append_left _ (List.mem_cons_of_mem _ (List.mem_append_left _ hs)))

theorem inElse (h : d.Has loop? k n (.branch condition extra thenBody elseBody :: as)) :
    d.Has loop? (k.before (n + (1 + Action.listSize thenBody + Action.listSize elseBody)) as)
      (n + 1 + Action.listSize thenBody) elseBody :=
  fun s hs => h s (List.mem_append_left _ (List.mem_cons_of_mem _ (List.mem_append_right _ hs)))

theorem inBody (h : d.Has loop? k n (.loop head extra body :: as)) :
    d.Has (some n) (.backTo n) (n + 1) body :=
  fun s hs => h s (List.mem_append_left _ (List.mem_cons_of_mem _ hs))

end Has

end Document

end ScriptFlow
