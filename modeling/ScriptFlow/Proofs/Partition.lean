import ScriptFlow.Proofs.Discovery
import Mathlib.Data.List.Sort

/-! The components of a flow are its weakly connected parts. The search for a root ends on a table of
parents of which nothing is known but how it came about, and a component holds what chains of edges
join, in node order. -/

namespace ScriptFlow

namespace Forest

/-! The joins of a forest once more, on a table of parents that carries no proof. -/

/-- The search for a root with a limit on its steps: none if a longer way or a vertex that the table
does not have comes up. -/
def findWithin (parents : List Nat) (limit v : Nat) : Option (Nat × List Nat) := do
  let p ← parents[v]?
  if p = v then some (v, parents)
  else
    match limit with
    | 0 => none
    | limit + 1 =>
      let q ← parents[p]?
      findWithin (parents.set v q) limit q

/-- Joins the trees of the two ends of an arc if they differ; the earlier root stays. -/
def joinWithin (limit : Nat) (parents : List Nat) (a : Arc) : Option (List Nat) := do
  let (s, parents) ← findWithin parents limit a.source
  let (t, parents) ← findWithin parents limit a.target
  if s = t then some parents
  else if s < t then some (parents.set t s)
  else some (parents.set s t)

/-- The roots of some vertices, each searched for in the table that the search before left. -/
def rootsWithin (limit : Nat) (parents : List Nat) : List Nat → Option (List Nat)
  | [] => some []
  | v :: vs => do
    let (r, parents) ← findWithin parents limit v
    let rs ← rootsWithin limit parents vs
    some (r :: rs)

/-- The parents of the first `n` vertices. -/
def table (f : Forest) (n : Nat) : List Nat := (List.range n).map f.parent

variable {f : Forest} {n limit v p : Nat}

theorem getElem?_table (h : v < n) : (f.table n)[v]? = some (f.parent v) := by
  rw [table, List.getElem?_map, List.getElem?_range h, Option.map_some]

theorem set_table (h : p ≤ v) : (f.table n).set v p = (f.setParent v p h).table n := by
  refine List.ext_getElem? fun i => ?_
  by_cases hi : i < n
  · rw [getElem?_table hi, List.getElem?_set, getElem?_table hi]
    simp only [setParent, table, List.length_map, List.length_range]
    grind
  · have hlength : n ≤ i := Nat.le_of_not_lt hi
    rw [List.getElem?_eq_none (by simpa [table]), List.getElem?_eq_none (by simpa [table])]

/-- Every step leads to an earlier vertex, so the search ends. -/
theorem findWithin_eq (h : v < n) (hlimit : v ≤ limit) :
    findWithin (f.table n) limit v = some ((f.find v).1, (f.find v).2.table n) := by
  fun_induction find f v generalizing limit with
  | case1 f v hroot =>
    rw [findWithin.eq_def, getElem?_table h]
    exact if_pos hroot
  | case2 f v hroot hlt ih =>
    obtain ⟨l, rfl⟩ : ∃ l, limit = l + 1 := ⟨limit - 1, by omega⟩
    have hstep := @ih l (by omega) (by omega)
    rw [← set_table] at hstep
    rw [findWithin.eq_def, getElem?_table h]
    simp only [Option.bind_eq_bind, Option.bind_some, if_neg hroot]
    rw [getElem?_table (Nat.lt_of_le_of_lt (f.parent_le v) h)]
    exact hstep

theorem joinWithin_eq {a : Arc} (hs : a.source < n) (ht : a.target < n) :
    joinWithin n (f.table n) a = some ((f.join a).table n) := by
  unfold joinWithin join
  simp only [findWithin_eq hs hs.le, findWithin_eq ht ht.le, Option.bind_eq_bind, Option.bind_some]
  by_cases heq : (f.find a.source).1 = ((f.find a.source).2.find a.target).1
  · rw [if_pos heq, dif_neg (by omega), ← set_table]
    refine congrArg some (List.ext_getElem? fun i => ?_)
    rw [List.getElem?_set]
    split
    · next hi =>
      -- a root is its own parent already
      obtain ⟨hroot, htop⟩ := f.find_spec a.source
      obtain ⟨-, htop'⟩ := (f.find a.source).2.find_spec a.target
      have hparent : ((f.find a.source).2.find a.target).2.parent i = i :=
        parent_eq_of_top_eq (by rw [htop', htop, ← hi, hroot, top_top])
      split
      · next hlt =>
        rw [getElem?_table (by simpa [table, hi] using hlt), hparent, ← heq, hi]
      · next hge => exact List.getElem?_eq_none (by simpa [hi] using hge)
    · rfl
  · rw [if_neg heq]
    split
    · rw [set_table]
    · rw [set_table]

theorem foldlM_joinWithin_eq {as : List Arc} (h : ∀ a ∈ as, a.source < n ∧ a.target < n) :
    as.foldlM (joinWithin n) (f.table n) = some ((as.foldl join f).table n) := by
  induction as generalizing f with
  | nil => rfl
  | cons a as ih =>
    obtain ⟨ha, has⟩ := List.forall_mem_cons.mp h
    rw [List.foldlM_cons, joinWithin_eq ha.1 ha.2]
    exact ih has

theorem rootsWithin_eq {vs : List Nat} (h : ∀ v ∈ vs, v < n) :
    rootsWithin n (f.table n) vs = some (vs.map f.root) := by
  induction vs generalizing f with
  | nil => rfl
  | cons v vs ih =>
    obtain ⟨hv, hvs⟩ := List.forall_mem_cons.mp h
    have hroot : (f.find v).2.root = f.root := by
      funext w
      rw [root_eq_top, root_eq_top, (f.find_spec v).2]
    simp only [rootsWithin, findWithin_eq hv hv.le, ih hvs, hroot, Option.bind_eq_bind,
      Option.bind_some, List.map_cons]
    rfl

theorem top_le (f : Forest) (v : Nat) : f.top v ≤ v := by
  induction v using Nat.strongRecOn with
  | ind v ih =>
    by_cases h : f.parent v = v
    · rw [top_of_root h]
    · rw [← top_parent]
      exact (ih _ (f.parent_lt h)).trans (f.parent_le v)

end Forest

namespace Topology

variable {t : Topology} {c d : List Nat} {n u v : Nat}

theorem sublist_of_mem_classes (hc : c ∈ t.classes) : c.Sublist t.order := by
  obtain ⟨v, -, rfl⟩ := t.mem_classes.mp hc
  exact List.filter_sublist

/-- A class is told by any of its members. -/
theorem mem_of_mem_classes (hc : c ∈ t.classes) (hv : v ∈ c) :
    u ∈ c ↔ u ∈ t.order ∧ t.forest.root u = t.forest.root v := by
  obtain ⟨w, -, rfl⟩ := t.mem_classes.mp hc
  rw [(beq_iff_eq.mp (List.mem_filter.mp hv).2 : t.forest.root v = _), List.mem_filter,
    beq_iff_eq]

theorem classes_eq (hc : c ∈ t.classes) (hd : d ∈ t.classes) (hvc : v ∈ c) (hvd : v ∈ d) :
    c = d := by
  obtain ⟨w, -, rfl⟩ := t.mem_classes.mp hc
  obtain ⟨x, -, rfl⟩ := t.mem_classes.mp hd
  rw [← (beq_iff_eq.mp (List.mem_filter.mp hvc).2 : t.forest.root v = _),
    ← (beq_iff_eq.mp (List.mem_filter.mp hvd).2 : t.forest.root v = _)]

theorem ne_nil_of_mem_classes (hc : c ∈ t.classes) : c ≠ [] := by
  obtain ⟨v, hv, rfl⟩ := t.mem_classes.mp hc
  exact List.ne_nil_of_mem (List.mem_filter.mpr ⟨hv, beq_self_eq_true _⟩)

/-- Every vertex is a member of one class. -/
theorem flatten_classes_perm (horder : t.order.Nodup) : t.classes.flatten.Perm t.order := by
  have hdisjoint : t.classes.Pairwise List.Disjoint :=
    t.nodup_classes.pairwise_of_forall_ne fun c hc d hd hne v hvc hvd =>
      hne (classes_eq hc hd hvc hvd)
  have hnodup : t.classes.flatten.Nodup :=
    List.nodup_flatten.mpr ⟨fun c hc => horder.sublist (sublist_of_mem_classes hc), hdisjoint⟩
  refine (List.perm_ext_iff_of_nodup hnodup horder).mpr fun v => ?_
  rw [List.mem_flatten]
  constructor
  · rintro ⟨c, hc, hv⟩
    exact (sublist_of_mem_classes hc).subset hv
  · exact t.exists_class

theorem share_class_iff (hu : u ∈ t.order) (hv : v ∈ t.order) :
    (∃ c ∈ t.classes, u ∈ c ∧ v ∈ c) ↔ Chained t.arcs u v := by
  rw [← root_eq_iff]
  constructor
  · rintro ⟨c, hc, huc, hvc⟩
    exact ((mem_of_mem_classes hc hvc).mp huc).2
  · intro heq
    obtain ⟨c, hc, hvc⟩ := t.exists_class hv
    exact ⟨c, hc, (mem_of_mem_classes hc hvc).mpr ⟨hu, heq⟩, hvc⟩

/-- Both ends of an arc between vertices are in one class. -/
theorem ends_mem_of_mem_classes {a : Arc} (hc : c ∈ t.classes) (ha : a ∈ (t.component c).arcs)
    (htarget : a.target ∈ t.order) : a.source ∈ c ∧ a.target ∈ c := by
  obtain ⟨harc, hsource⟩ := List.mem_filter.mp ha
  have hsource : a.source ∈ c := List.contains_iff_mem.mp hsource
  have hroot := t.root_eq_iff.mpr (Chained.of_mem harc).symm
  exact ⟨hsource, (mem_of_mem_classes hc hsource).mpr ⟨htarget, hroot⟩⟩

/-- The root of a class is its first member. -/
theorem head?_eq_root (horder : t.order = List.range n) (hc : c ∈ t.classes) (hv : v ∈ c) :
    c.head? = some (t.forest.root v) := by
  have hroot : t.forest.root v ∈ c := by
    have hlt : v < n := by
      have hm := (sublist_of_mem_classes hc).subset hv
      rwa [horder, List.mem_range] at hm
    refine (mem_of_mem_classes hc hv).mpr ⟨?_, ?_⟩
    · rw [horder, List.mem_range, Forest.root_eq_top]
      exact Nat.lt_of_le_of_lt (t.forest.top_le v) hlt
    · rw [Forest.root_eq_top, Forest.root_eq_top, Forest.top_top]
  have hsorted : c.Pairwise (· < ·) := by
    refine List.Pairwise.sublist (sublist_of_mem_classes hc) ?_
    rw [horder]
    exact List.pairwise_lt_range
  cases c with
  | nil => exact absurd hv List.not_mem_nil
  | cons w ws =>
    have hw := (mem_of_mem_classes hc hv).mp List.mem_cons_self
    have hle : t.forest.root v ≤ w := by
      rw [← hw.2, Forest.root_eq_top]
      exact t.forest.top_le w
    rcases List.mem_cons.mp hroot with heq | hlater
    · rw [heq, List.head?_cons]
    · have := List.rel_of_pairwise_cons hsorted hlater
      omega

/-- The classes come in the order of their first members. -/
theorem heads_sublist (horder : t.order = List.range n) :
    (t.classes.filterMap List.head?).Sublist (List.range n) := by
  have hheads : t.classes.Pairwise fun c d => ∀ v ∈ c.head?, ∀ w ∈ d.head?, v < w := by
    refine (t.pairwise_classes.and t.nodup_classes).imp_of_mem ?_
    rintro c d hc hd ⟨hle, hne⟩ v hv w hw
    rw [List.headD_eq_head?_getD, hv, List.headD_eq_head?_getD, hw] at hle
    refine Nat.lt_of_le_of_ne hle ?_
    rintro rfl
    exact hne (classes_eq hc hd (List.mem_of_head? hv) (List.mem_of_head? hw))
  have hsorted : (t.classes.filterMap List.head?).Pairwise (· < ·) :=
    List.pairwise_filterMap.mpr hheads
  have hsubset : t.classes.filterMap List.head? ⊆ List.range n := by
    intro v hv
    obtain ⟨c, hc, hhead⟩ := List.mem_filterMap.mp hv
    rw [← horder]
    exact (sublist_of_mem_classes hc).subset (List.mem_of_head? hhead)
  exact List.sublist_of_subperm_of_pairwise (List.subperm_of_subset hsorted.nodup hsubset) hsorted
    List.pairwise_lt_range

end Topology

theorem lastIndex?_spec {ids : List String} {id : String} {i : Nat}
    (h : lastIndex? ids id = some i) : ids[i]? = some id := by
  induction ids generalizing i with
  | nil => cases h
  | cons a ids ih =>
    rw [lastIndex?] at h
    split at h
    · next j hj =>
      obtain rfl : j + 1 = i := Option.some.inj h
      exact ih hj
    · split at h
      · next ha =>
        obtain rfl : 0 = i := Option.some.inj h
        exact congrArg some ha
      · cases h

theorem filterMap_range_getElem? {α : Type} (l : List α) :
    (List.range l.length).filterMap (l[·]?) = l := by
  induction l with
  | nil => rfl
  | cons a l ih =>
    rw [List.length_cons, List.range_succ_eq_map, List.filterMap_cons, List.filterMap_map]
    exact congrArg (a :: ·) ih

theorem eqvGen_map {α β : Type} {r : α → α → Prop} {p : β → β → Prop} {f : α → β}
    (h : ∀ a b, r a b → Relation.EqvGen p (f a) (f b)) {a b : α} (hab : Relation.EqvGen r a b) :
    Relation.EqvGen p (f a) (f b) := by
  induction hab with
  | rel a b hr => exact h a b hr
  | refl a => exact .refl _
  | symm a b _ ih => exact .symm _ _ ih
  | trans a b c _ _ ih ih' => exact .trans _ _ _ ih ih'

namespace Graph

/-- A structural edge leads from one node to another. -/
def Tied (g : Graph) (s t : String) : Prop :=
  ∃ e ∈ g.structuralEdges, e.source = s ∧ e.target = t ∧ s ≠ t ∧ s ∈ g.ids ∧ t ∈ g.ids

/-- A chain of such edges, taken in either direction, leads from one node to the other. -/
def Joined (g : Graph) : String → String → Prop := Relation.EqvGen g.Tied

variable {g : Graph} {s t : String} {u v : Nat}

theorem arc?_eq_some {e : Edge} {a : Arc} : g.arc? e = some a ↔ e.source ≠ e.target ∧
    lastIndex? g.ids e.source = some a.source ∧ lastIndex? g.ids e.target = some a.target ∧
      a.isLoopBack = (e.branch == .loopBack) := by
  obtain ⟨s, t, back⟩ := a
  unfold arc?
  split
  · next h => simp [h]
  · next h =>
    split
    · next hs ht =>
      rw [hs, ht, Option.some.injEq, Arc.mk.injEq, Option.some.injEq, Option.some.injEq]
      exact ⟨fun ⟨h1, h2, h3⟩ => ⟨h, h1, h2, h3.symm⟩, fun ⟨_, h1, h2, h3⟩ => ⟨h1, h2, h3.symm⟩⟩
    · next hnone =>
      refine ⟨fun h => absurd h (by simp), ?_⟩
      rintro ⟨-, hs, ht, -⟩
      exact absurd ht (hnone _ _ hs)

theorem mem_arcs {a : Arc} : a ∈ g.topology.arcs ↔ ∃ e ∈ g.structuralEdges, g.arc? e = some a :=
  List.mem_filterMap

theorem ids_getElem_of_arc {a : Arc} (ha : a ∈ g.topology.arcs) : ∃ e ∈ g.structuralEdges,
    e.source ≠ e.target ∧ g.ids[a.source]? = some e.source ∧ g.ids[a.target]? = some e.target := by
  obtain ⟨e, he, harc⟩ := mem_arcs.mp ha
  obtain ⟨hne, hs, ht, -⟩ := arc?_eq_some.mp harc
  exact ⟨e, he, hne, lastIndex?_spec hs, lastIndex?_spec ht⟩

theorem arc_lt {a : Arc} (ha : a ∈ g.topology.arcs) :
    a.source < g.ids.length ∧ a.target < g.ids.length := by
  obtain ⟨e, -, -, hs, ht⟩ := ids_getElem_of_arc ha
  exact ⟨(List.getElem?_eq_some_iff.mp hs).1, (List.getElem?_eq_some_iff.mp ht).1⟩

/-- Chains of arcs are chains of edges. -/
theorem chained_iff_joined (hids : g.ids.Nodup) (hs : g.ids[u]? = some s)
    (ht : g.ids[v]? = some t) : Chained g.topology.arcs u v ↔ g.Joined s t := by
  have hname : ∀ {w : Nat} {id : String}, g.ids[w]? = some id → g.ids.getD w "" = id := by
    intro w id hw
    rw [List.getD_eq_getElem?_getD, hw, Option.getD_some]
  have hnumber : ∀ {w : Nat} {id : String}, g.ids[w]? = some id →
      (lastIndex? g.ids id).getD 0 = w := by
    intro w id hw
    rw [lastIndex?_eq_some hids hw, Option.getD_some]
  constructor
  · intro h
    rw [← hname hs, ← hname ht]
    refine eqvGen_map (f := fun w => g.ids.getD w "") ?_ h
    rintro _ _ ⟨a, ha, rfl, rfl⟩
    obtain ⟨e, he, hne, hsource, htarget⟩ := ids_getElem_of_arc ha
    rw [hname hsource, hname htarget]
    exact .rel _ _ ⟨e, he, rfl, rfl, hne, List.mem_of_getElem? hsource,
      List.mem_of_getElem? htarget⟩
  · intro h
    rw [← hnumber hs, ← hnumber ht]
    refine eqvGen_map (f := fun id => (lastIndex? g.ids id).getD 0) ?_ h
    rintro _ _ ⟨e, he, rfl, rfl, hne, hsource, htarget⟩
    obtain ⟨i, hi⟩ := exists_lastIndex? hsource
    obtain ⟨j, hj⟩ := exists_lastIndex? htarget
    have harc : g.arc? e = some ⟨i, j, e.branch == .loopBack⟩ :=
      arc?_eq_some.mpr ⟨hne, hi, hj, rfl⟩
    rw [hi, hj]
    exact Chained.of_mem (mem_arcs.mpr ⟨e, he, harc⟩)

theorem order_eq (hids : g.ids.Nodup) : g.topology.order = List.range g.ids.length :=
  filterMap_lastIndex? hids

/-- The ids of each component. -/
def groups (g : Graph) : List (List String) :=
  g.topology.components.map fun c => c.members.filterMap (g.ids[·]?)

theorem groups_eq (g : Graph) :
    g.groups = g.topology.classes.map fun c => c.filterMap (g.ids[·]?) := by
  rw [groups, Topology.components, List.map_map]
  rfl

/-- The raw table of parents: no search for a root fails, and the roots are those of the forest. -/
theorem roots_eq (g : Graph) (hids : g.ids.Nodup) :
    (g.topology.arcs.foldlM (Forest.joinWithin g.ids.length) (List.range g.ids.length)).bind
      (Forest.rootsWithin g.ids.length · g.topology.order) =
        some (g.topology.order.map g.topology.forest.root) := by
  have hdiscrete : Forest.discrete.table g.ids.length = List.range g.ids.length := List.map_id _
  rw [← hdiscrete, Forest.foldlM_joinWithin_eq fun a ha => arc_lt ha, Option.bind_some]
  refine Forest.rootsWithin_eq fun v hv => ?_
  rwa [order_eq hids, List.mem_range] at hv

theorem flatten_groups_perm (hids : g.ids.Nodup) : g.groups.flatten.Perm g.ids := by
  have horder : g.topology.order.Nodup := order_eq hids ▸ List.nodup_range
  have hperm := (Topology.flatten_classes_perm horder).filterMap (g.ids[·]?)
  rw [List.filterMap_flatten, order_eq hids, filterMap_range_getElem?] at hperm
  rwa [groups_eq]

theorem sublist_of_mem_groups (hids : g.ids.Nodup) {group : List String} (h : group ∈ g.groups) :
    group.Sublist g.ids := by
  rw [groups_eq, List.mem_map] at h
  obtain ⟨c, hc, rfl⟩ := h
  have hsub := (Topology.sublist_of_mem_classes hc).filterMap (g.ids[·]?)
  rwa [order_eq hids, filterMap_range_getElem?] at hsub

theorem nodup_of_mem_classes (hids : g.ids.Nodup) {c : List Nat}
    (hc : c ∈ g.topology.classes) : c.Nodup := by
  refine List.Nodup.sublist (Topology.sublist_of_mem_classes hc) ?_
  rw [order_eq hids]
  exact List.nodup_range

theorem exists_getElem?_of_mem_classes (hids : g.ids.Nodup) {c : List Nat}
    (hc : c ∈ g.topology.classes) (hv : v ∈ c) : ∃ id, g.ids[v]? = some id := by
  have hlt := (Topology.sublist_of_mem_classes hc).subset hv
  rw [order_eq hids, List.mem_range] at hlt
  exact ⟨_, List.getElem?_eq_getElem hlt⟩

/-- The first node of a group is that of the first vertex of its class. -/
theorem head?_group (hids : g.ids.Nodup) {c : List Nat} (hc : c ∈ g.topology.classes) :
    (c.filterMap (g.ids[·]?)).head? = c.head?.bind (g.ids[·]?) := by
  cases c with
  | nil => rfl
  | cons v vs =>
    obtain ⟨id, hid⟩ := exists_getElem?_of_mem_classes hids hc List.mem_cons_self
    rw [List.filterMap_cons_some hid]
    exact hid.symm

theorem ne_nil_of_mem_groups (hids : g.ids.Nodup) {group : List String} (h : group ∈ g.groups) :
    group ≠ [] := by
  rw [groups_eq, List.mem_map] at h
  obtain ⟨c, hc, rfl⟩ := h
  obtain ⟨v, hv⟩ := List.exists_mem_of_ne_nil c (Topology.ne_nil_of_mem_classes hc)
  obtain ⟨id, hid⟩ := exists_getElem?_of_mem_classes hids hc hv
  exact List.ne_nil_of_mem (List.mem_filterMap.mpr ⟨v, hv, hid⟩)

theorem heads_groups_sublist (hids : g.ids.Nodup) :
    (g.groups.filterMap List.head?).Sublist g.ids := by
  have hheads : g.groups.filterMap List.head? =
      (g.topology.classes.filterMap List.head?).filterMap (g.ids[·]?) := by
    rw [groups_eq, List.filterMap_map, List.filterMap_filterMap]
    exact List.filterMap_congr fun c hc => head?_group hids hc
  have hsub := (Topology.heads_sublist (order_eq hids)).filterMap (g.ids[·]?)
  rwa [filterMap_range_getElem?, ← hheads] at hsub

theorem mem_group_iff (hids : g.ids.Nodup) {c : List Nat} (hs : g.ids[u]? = some s) :
    s ∈ c.filterMap (g.ids[·]?) ↔ u ∈ c := by
  rw [List.mem_filterMap]
  constructor
  · rintro ⟨w, hw, hws⟩
    have hlt := (List.getElem?_eq_some_iff.mp hs).1
    rwa [(List.getElem?_inj hlt hids).mp (hs.trans hws.symm)]
  · exact fun hu => ⟨u, hu, hs⟩

theorem mem_order_of_getElem? (hids : g.ids.Nodup) (hs : g.ids[u]? = some s) :
    u ∈ g.topology.order := by
  rw [order_eq hids, List.mem_range]
  exact (List.getElem?_eq_some_iff.mp hs).1

theorem share_group_iff (hids : g.ids.Nodup) (hs : s ∈ g.ids) (ht : t ∈ g.ids) :
    (∃ group ∈ g.groups, s ∈ group ∧ t ∈ group) ↔ g.Joined s t := by
  obtain ⟨u, hu⟩ := List.mem_iff_getElem?.mp hs
  obtain ⟨v, hv⟩ := List.mem_iff_getElem?.mp ht
  rw [← chained_iff_joined hids hu hv, groups_eq,
    ← Topology.share_class_iff (mem_order_of_getElem? hids hu) (mem_order_of_getElem? hids hv)]
  simp only [List.mem_map, exists_exists_and_eq_and, mem_group_iff hids hu, mem_group_iff hids hv]

/-- The node that stands for the tree of a node. -/
def root? (g : Graph) (id : String) : Option String := do
  let v ← lastIndex? g.ids id
  g.ids[g.topology.forest.root v]?

theorem root?_eq_head? (hids : g.ids.Nodup) {group : List String} (h : group ∈ g.groups)
    (hs : s ∈ group) : g.root? s = group.head? := by
  rw [groups_eq, List.mem_map] at h
  obtain ⟨c, hc, rfl⟩ := h
  obtain ⟨u, hu, hid⟩ := List.mem_filterMap.mp hs
  rw [head?_group hids hc, Topology.head?_eq_root (order_eq hids) hc hu, root?,
    lastIndex?_eq_some hids hid]
  rfl

/-- Both ends of the arcs of a component are members. -/
theorem arc_ends_mem (hids : g.ids.Nodup) {c : Component} (hc : c ∈ g.topology.components)
    {a : Arc} (ha : a ∈ c.arcs) : a.source ∈ c.members ∧ a.target ∈ c.members := by
  obtain ⟨members, hclass, rfl⟩ := List.mem_map.mp hc
  refine Topology.ends_mem_of_mem_classes hclass ha ?_
  rw [order_eq hids, List.mem_range]
  exact (arc_lt (List.mem_filter.mp ha).1).2

theorem closed_of_mem_components (hids : g.ids.Nodup) {c : Component}
    (hc : c ∈ g.topology.components) : c.Closed := by
  refine ⟨?_, fun a ha => ?_⟩
  · obtain ⟨members, hm, rfl⟩ := List.mem_map.mp hc
    exact nodup_of_mem_classes hids hm
  · obtain ⟨b, hb, rfl⟩ := List.mem_map.mp ha
    exact arc_ends_mem hids hc (List.mem_filter.mp hb).1

/-- Three components in turns: a cycle with an edge to nowhere, two nodes of which one leads to itself,
and a node alone. A data edge joins nothing. -/
def scattered : Graph where
  nodes := ["a", "b", "c", "d", "e"].map fun id => ⟨id, .action, "wait", [], .zero, [], [], []⟩
  edges := [.structural "a" "c" .none, .structural "c" "a" .none, .structural "a" "f" .none,
    .structural "b" "b" .none, .structural "d" "b" .whenTrue, .data "a" "b" "x"]

end Graph

end ScriptFlow
