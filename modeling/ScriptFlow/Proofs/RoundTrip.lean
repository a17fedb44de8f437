import ScriptFlow.Proofs.Links
import ScriptFlow.Proofs.Saved
import ScriptFlow.Proofs.Walk

/-! Reading a drawn flow back gives the script in normal form: the walk from a node on meets the
actions that the flow goes on with there, and each of them is read back as it was drawn. -/

namespace ScriptFlow

/-- The id of the node to which a plain edge leads. -/
def Onward.plainId? (stem : String) : Onward → Option String
  | stops => none
  | goesTo m => some (nodeId stem m)
  | backTo _ => none

/-- From `k` on the actions of a list come, then those after it, until the flow ends or goes
back. -/
inductive Trail (d : Document) : Onward → List Action → Prop
  | stops : Trail d .stops []
  | back {m : Nat} : Trail d (.backTo m) []
  | on {loop? : Option Nat} {k : Onward} {n : Nat} {a : Action} {as rest : List Action} :
      d.Has loop? k n (a :: as) → Trail d k rest → Trail d (.goesTo n) (a :: (as ++ rest))

theorem Trail.before {d : Document} {loop? : Option Nat} {k : Onward} {n : Nat}
    {as rest : List Action} (h : d.Has loop? k n as) (ht : Trail d k rest) :
    Trail d (k.before n as) (as ++ rest) := by
  cases as with
  | nil => exact ht
  | cons a as => exact .on h ht

/-- A plain link of a station leads forward. -/
theorem Document.lt_of_goesTo {d : Document} {s : Station} (hs : s ∈ d.stations) {m : Nat}
    (hl : ⟨s.number, m, .none⟩ ∈ s.links) : s.number < m := by
  obtain ⟨p, -, hsp⟩ := mem_stations.mp hs
  rcases Capability.link_inside hsp hl with ⟨-, hlt, -⟩ | ⟨hb, -⟩
  · exact hlt
  · cases hb

section

variable {stem : String} {d : Document} {g : Graph}

/-- Where a plain edge leads from a station that goes on by itself. -/
theorem target?_none (h : d.draw stem = .ok g) {s : Station} (hs : s ∈ d.stations)
    (hl : s.links.find? (·.branch == .none) = (s.onward.links s.number).find? (·.branch == .none)) :
    g.target? (nodeId stem s.number) .none = s.onward.plainId? stem := by
  rw [target?_of_station h hs, hl]
  cases s.onward <;> rfl

/-- Where the edge into a branch or a body leads. -/
theorem target?_enter (h : d.draw stem = .ok g) {s : Station} (hs : s ∈ d.stations) {b : Branch}
    {first : Nat} {body : List Action}
    (hlinks : ∀ l, l ∈ s.links ∧ l.branch = b ↔ body ≠ [] ∧ l = ⟨s.number, first, b⟩) :
    g.target? (nodeId stem s.number) b =
      if body.isEmpty then none else some (nodeId stem first) := by
  rw [target?_of_station h hs]
  cases body with
  | nil =>
    have hnone : s.links.find? (·.branch == b) = none := by
      rw [List.find?_eq_none]
      intro l hl hb
      exact ((hlinks l).mp ⟨hl, by simpa using hb⟩).1 rfl
    rw [hnone]
    rfl
  | cons a as =>
    have hmem := ((hlinks ⟨s.number, first, b⟩).mpr ⟨List.cons_ne_nil a as, rfl⟩).1
    rw [find?_eq_some_of_unique hmem (by simp)]
    · rfl
    · intro l hl hb
      exact ((hlinks l).mp ⟨hl, by simpa using hb⟩).2

theorem exists_action_node (h : d.draw stem = .ok g) {s : Station} (hs : s ∈ d.stations)
    {a : Action} (ha : s.action? = some a) :
    ∃ n ∈ g.nodes, ∃ spot, (Item.action s.number a spot).node stem = .ok n := by
  have hm : s.numbered ∈ d.stations.map Station.numbered := List.mem_map_of_mem hs
  rw [← d.numbered_items, List.mem_map] at hm
  obtain ⟨i, hi, he⟩ := hm
  obtain ⟨n, hn, hnode⟩ := exists_of_forall₂_right (nodes_of_draw h).flip i hi
  cases i with
  | capability => simp [Item.numbered, Station.numbered, ha] at he
  | action k b spot =>
    simp only [Item.numbered, Station.numbered, ha, Prod.mk.injEq, Option.some.injEq] at he
    obtain ⟨rfl, rfl⟩ := he
    exact ⟨n, hn, spot, hnode⟩

/-- No node numbered from `n` on was met. -/
def Fresh (stem : String) (n : Nat) (visited : List String) : Prop :=
  ∀ i, n ≤ i → nodeId stem i ∉ visited

theorem Fresh.cons {n m : Nat} {visited : List String} (h : Fresh stem n visited) (hlt : n < m) :
    Fresh stem m (nodeId stem n :: visited) := by
  intro i hi hmem
  rcases List.mem_cons.mp hmem with he | hmem
  · have := nodeId_inj.mp he
    omega
  · exact h i (by omega) hmem

theorem Fresh.mono {n m : Nat} {visited : List String} (h : Fresh stem n visited) (hlt : n < m) :
    Fresh stem m visited :=
  fun i hi => h i (by omega)

theorem Visit.listToActions_cons {v : Visit} {vs : List Visit} {a : Action} {as : List Action}
    (hv : v.toAction = .ok a) (hvs : listToActions vs = .ok as) :
    listToActions (v :: vs) = .ok (a :: as) := by
  rw [listToActions, hv, hvs]
  rfl

/-! What is read back from a walk that begins at a station, by what stands there. -/

section

variable {n : Nat} {a : Action} {loop? : Option Nat} {k : Onward} {stop visited : List String}

/-- The walk finds the node of the station where it begins. -/
theorem exists_walk_some (h : d.draw stem = .ok g) (hs : ⟨n, some a, loop?, k⟩ ∈ d.stations) :
    ∃ node spot, (Item.action n a spot).node stem = .ok node ∧ node.kind = a.kind ∧
      g.findLast? (nodeId stem n) = some node := by
  obtain ⟨node, hnode, spot, hn⟩ := exists_action_node h hs rfl
  obtain ⟨hid, hkind⟩ := Prod.mk.inj (Item.id_kind_of_node hn)
  have hfind := Graph.findLast?_eq_some (nodup_ids_of_draw h) hnode
  rw [hid] at hfind
  exact ⟨node, spot, hn, hkind, hfind⟩

theorem listToActions_leaf {type : String} {fields : Fields} {as : List Action}
    (h : d.draw stem = .ok g) (hs : ⟨n, some (.leaf type fields), loop?, k⟩ ∈ d.stations)
    (hkept : (Action.leaf type fields).Restored) (hstop : nodeId stem n ∉ stop)
    (hvisited : nodeId stem n ∉ visited)
    (hrest : Visit.listToActions (g.walk stop (nodeId stem n :: visited) (k.plainId? stem)) =
      .ok as) :
    Visit.listToActions (g.walk stop visited (some (nodeId stem n))) =
      .ok (.leaf type fields :: as) := by
  obtain ⟨node, spot, hn, hkind, hfind⟩ := exists_walk_some h hs
  rw [Graph.walk_some hstop hvisited hfind, hkind]
  simp only [Action.kind]
  rw [target?_none h hs rfl]
  exact Visit.listToActions_cons (leaf_of_node hn hkept) hrest

theorem listToActions_branch {condition : Option Json} {extra : Fields}
    {thenBody elseBody ts es : List Action} (h : d.draw stem = .ok g)
    (hs : ⟨n, some (.branch condition extra thenBody elseBody), loop?, k⟩ ∈ d.stations)
    (hkept : (Action.branch condition extra thenBody elseBody).Restored)
    (hstop : nodeId stem n ∉ stop) (hvisited : nodeId stem n ∉ visited)
    (hthen : Visit.listToActions (g.walk stop (nodeId stem n :: visited)
      (if thenBody.isEmpty then none else some (nodeId stem (n + 1)))) = .ok ts)
    (helse : Visit.listToActions (g.walk stop (nodeId stem n :: visited)
      (if elseBody.isEmpty then none
        else some (nodeId stem (n + 1 + Action.listSize thenBody)))) = .ok es) :
    Visit.listToActions (g.walk stop visited (some (nodeId stem n))) =
      .ok [.branch condition extra ts es] := by
  obtain ⟨node, spot, hn, hkind, hfind⟩ := exists_walk_some h hs
  rw [Graph.walk_some hstop hvisited hfind, hkind]
  simp only [Action.kind]
  rw [target?_enter h hs fun _ => Station.whenTrue_links,
    target?_enter h hs fun _ => Station.whenFalse_links]
  refine Visit.listToActions_cons ?_ rfl
  rw [Visit.toAction, hthen, helse]
  exact congrArg Except.ok (branch_of_node hn hkept ts es)

theorem listToActions_loop {head : LoopHead} {extra : Fields} {body bs as : List Action}
    (h : d.draw stem = .ok g) (hs : ⟨n, some (.loop head extra body), loop?, k⟩ ∈ d.stations)
    (hkept : (Action.loop head extra body).Restored) (hstop : nodeId stem n ∉ stop)
    (hvisited : nodeId stem n ∉ visited)
    (hbody : Visit.listToActions (g.walk (nodeId stem n :: stop) (nodeId stem n :: visited)
      (if body.isEmpty then none else some (nodeId stem (n + 1)))) = .ok bs)
    (hrest : Visit.listToActions (g.walk stop (nodeId stem n :: visited) (k.plainId? stem)) =
      .ok as) :
    Visit.listToActions (g.walk stop visited (some (nodeId stem n))) =
      .ok (.loop head extra bs :: as) := by
  obtain ⟨node, spot, hn, hkind, hfind⟩ := exists_walk_some h hs
  have hplain : (Station.links ⟨n, some (.loop head extra body), loop?, k⟩).find?
      (·.branch == .none) = (k.links n).find? (·.branch == .none) := by
    have hentry : (Action.entryLink n .body (n + 1) body).find? (·.branch == .none) = none := by
      cases body <;> rfl
    rw [Station.links, List.find?_append, hentry, Option.or_none]
  rw [Graph.walk_some hstop hvisited hfind, hkind]
  simp only [Action.kind]
  rw [target?_enter h hs fun _ => Station.body_links, target?_none h hs hplain]
  refine Visit.listToActions_cons ?_ hrest
  rw [Visit.toAction, hbody]
  exact congrArg Except.ok (loop_of_node hn hkept bs)

end

/-- From wherever fewer than `size` actions come, the walk reads them back. -/
def ReadsBelow (stem : String) (d : Document) (g : Graph) (size : Nat) : Prop :=
  ∀ {k : Onward} {r : List Action} {stop visited : List String}, Trail d k r →
    Action.listSize r < size → (∀ m, k = .goesTo m → Fresh stem m stop) →
    (∀ m, k = .goesTo m → Fresh stem m visited) →
    Visit.listToActions (g.walk stop visited (k.plainId? stem)) = .ok (Action.normalize r)

namespace ReadsBelow

variable {size n : Nat} {loop? : Option Nat} {k : Onward} {stop visited : List String}

/-- What is read back along the edge into a branch or a body. -/
theorem enter (hread : ReadsBelow stem d g size) {first : Nat} {body after : List Action}
    (hbody : d.Has loop? k first body) (hafter : Trail d k after)
    (hsize : Action.listSize body + Action.listSize after < size) (hlt : n < first)
    (hstop : Fresh stem first stop) (hvisited : Fresh stem n visited) :
    Visit.listToActions (g.walk stop (nodeId stem n :: visited)
      (if body.isEmpty then none else some (nodeId stem first))) =
      .ok (if body.isEmpty then [] else Action.normalize (body ++ after)) := by
  cases body with
  | nil =>
    rw [List.isEmpty_nil, if_pos rfl, if_pos rfl, Graph.walk_none]
    rfl
  | cons b bs =>
    refine hread (Trail.before hbody hafter) ?_ ?_ ?_
    · rw [Action.listSize_append]
      exact hsize
    · intro m hm
      cases hm
      exact hstop
    · intro m hm
      cases hm
      exact hvisited.cons hlt

/-- What is read back after an action that has a plain edge to what comes next. -/
theorem rest (hread : ReadsBelow stem d g size) {a : Action} {as after : List Action}
    (hd : d.Has loop? k n (a :: as)) (hafter : Trail d k after)
    (hsize : Action.listSize as + Action.listSize after < size)
    (hlink : ∀ m, k.before (n + a.size) as = .goesTo m →
      ⟨n, m, .none⟩ ∈ Station.links ⟨n, some a, loop?, k.before (n + a.size) as⟩)
    (hstop : Fresh stem n stop) (hvisited : Fresh stem n visited) :
    Visit.listToActions (g.walk stop (nodeId stem n :: visited)
      ((k.before (n + a.size) as).plainId? stem)) = .ok (Action.normalize (as ++ after)) := by
  have hgo : ∀ m, k.before (n + a.size) as = .goesTo m → n < m :=
    fun m hm => Document.lt_of_goesTo hd.station (hlink m hm)
  refine hread (Trail.before hd.tail hafter) ?_ ?_ ?_
  · rw [Action.listSize_append]
    exact hsize
  · intro m hm
    exact hstop.mono (hgo m hm)
  · intro m hm
    exact hvisited.cons (hgo m hm)

end ReadsBelow

/-- The walk from where the flow goes on reads back the actions that come there. -/
theorem listToActions_walk (h : d.draw stem = .ok g)
    (hkept : ∀ s ∈ d.stations, ∀ a, s.action? = some a → a.Restored) {k : Onward} {r : List Action}
    (ht : Trail d k r) {stop visited : List String}
    (hstop : ∀ m, k = .goesTo m → Fresh stem m stop)
    (hvisited : ∀ m, k = .goesTo m → Fresh stem m visited) :
    Visit.listToActions (g.walk stop visited (k.plainId? stem)) = .ok (Action.normalize r) := by
  -- by the size of what comes, since a branch is read back with the actions after its `if`
  induction hsize : Action.listSize r using Nat.strongRecOn generalizing k r stop visited with
  | ind size ih =>
    have hread : ReadsBelow stem d g size :=
      fun ht hlt hstop hvisited => ih _ hlt ht hstop hvisited rfl
    cases ht with
    | stops =>
      rw [Onward.plainId?, Graph.walk_none, Action.normalize]
      rfl
    | back =>
      rw [Onward.plainId?, Graph.walk_none, Action.normalize]
      rfl
    | @on loop? k n a as rest hd hrest =>
      have hs := hstop n rfl
      have hv := hvisited n rfl
      have hsn := hs n (Nat.le_refl n)
      have hvn := hv n (Nat.le_refl n)
      have hkeep := hkept _ hd.station a rfl
      have hpos := a.size_pos
      simp only [Action.listSize, Action.listSize_append] at hsize
      cases a with
      | leaf type fields =>
        rw [Action.normalize]
        refine listToActions_leaf h hd.station hkeep hsn hvn ?_
        refine hread.rest hd hrest (by omega) ?_ hs hv
        intro m hm
        simp [Station.links, hm, Onward.links]
      | branch condition extra thenBody elseBody =>
        rw [Action.size] at hsize
        have hafter := Trail.before hd.tail hrest
        have hsum := Action.listSize_append as rest
        have hthen := hread.enter hd.inThen hafter (by omega) (by omega) (hs.mono (by omega)) hv
        have helse := hread.enter hd.inElse hafter (by omega) (by omega) (hs.mono (by omega)) hv
        rw [Action.normalize]
        exact listToActions_branch h hd.station hkeep hsn hvn hthen helse
      | loop head extra body =>
        rw [Action.size] at hsize
        have hnil : Action.listSize [] = 0 := rfl
        have hbody := hread.enter hd.inBody .back (by omega) (by omega) (hs.cons (by omega)) hv
        rw [List.append_nil, Action.ite_isEmpty_normalize] at hbody
        rw [Action.normalize]
        refine listToActions_loop h hd.station hkeep hsn hvn hbody ?_
        refine hread.rest hd hrest (by omega) ?_ hs hv
        intro m hm
        simp [Station.links, hm, Onward.links]

/-! Capabilities are read back from the entries, in order. -/

def Item.isCapability : Item → Bool
  | capability .. => true
  | action .. => false

theorem Item.isEntry_of_node {i : Item} {n : Node} (hn : i.node stem = .ok n) :
    i.isCapability ↔ n.isEntry := by
  obtain ⟨-, hkind⟩ := Prod.mk.inj (id_kind_of_node hn)
  cases i with
  | capability => simp [isCapability, Node.isEntry, hkind, numbered]
  | action k a => cases a <;> simp [isCapability, Node.isEntry, hkind, numbered, Action.kind]

mutual
theorem Action.filter_items (n : Nat) (spot : Spot) : (a : Action) →
    (a.items n spot).filter Item.isCapability = []
  | leaf .. => rfl
  | branch _ _ thenBody elseBody => by
    simp only [items, List.filter_cons, List.filter_append, Item.isCapability]
    rw [filter_listItems _ _ thenBody, filter_listItems _ _ elseBody]
    rfl
  | loop _ _ body => by
    simp only [items, List.filter_cons, Item.isCapability]
    rw [filter_listItems _ _ body]
    rfl

theorem Action.filter_listItems (n : Nat) (spot : Spot) : (as : List Action) →
    (listItems n spot as).filter Item.isCapability = []
  | [] => rfl
  | a :: as => by
    rw [listItems, List.filter_append, filter_items n spot a, filter_listItems _ _ as]
    rfl
end

theorem Capability.filter_items (n : Nat) (c : Capability) :
    (c.items n).filter Item.isCapability = [.capability n c] := by
  rw [items, List.filter_cons, Action.filter_listItems]
  rfl

theorem Document.filter_items (d : Document) :
    d.outline.items.filter Item.isCapability = d.placed.map fun p => .capability p.1 p.2 := by
  rw [placed, map_collect, outline, filter_collect]
  congr 1
  funext n c
  exact c.filter_items n

/-- The entries are the nodes of the capabilities. -/
theorem entries_of_draw (h : d.draw stem = .ok g) :
    List.Forall₂ (fun p n => (Item.capability p.1 p.2).node stem = .ok n) d.placed g.entries := by
  have hf : List.Forall₂ (fun i n => Item.node stem i = .ok n)
      (d.outline.items.filter Item.isCapability) (g.nodes.filter Node.isEntry) :=
    List.rel_filter (fun _ _ hn => Item.isEntry_of_node hn) (nodes_of_draw h)
  rw [d.filter_items, List.forall₂_map_left_iff] at hf
  exact hf

theorem filter_plainId? (stem : String) (k : Onward) :
    (k.plainId? stem).filter (· ≠ "") = k.plainId? stem := by
  cases k <;> simp [Onward.plainId?, nodeId_ne_empty]

/-- A capability is read back from its entry with its actions in normal form. -/
theorem capability_of_entry (h : d.draw stem = .ok g)
    (hkept : ∀ s ∈ d.stations, ∀ a, s.action? = some a → a.Restored) {p : Nat × Capability}
    (hp : p ∈ d.placed) (hkeys : p.2.KeysApart) {n : Node}
    (hn : (Item.capability p.1 p.2).node stem = .ok n) :
    g.capability n = .ok { p.2 with actions := Action.normalize p.2.actions } := by
  have hid : n.id = nodeId stem p.1 := congrArg Prod.fst (Item.id_kind_of_node hn)
  have hs := Document.station_of_placed hp
  have hgo : ∀ m, Onward.stops.before (p.1 + 1) p.2.actions = .goesTo m → p.1 < m :=
    fun m hm => Document.lt_of_goesTo hs (by simp [Station.links, hm, Onward.links])
  have hnil : Fresh stem p.1 [] := fun _ _ => List.not_mem_nil
  have hwalk := listToActions_walk h hkept (Trail.before (Document.has_of_placed hp) .stops)
    (fun m hm => hnil.mono (hgo m hm)) (fun m hm => hnil.cons (hgo m hm))
  rw [List.append_nil] at hwalk
  have hfrom : g.walkFrom n = g.walk [] [nodeId stem p.1]
      ((Onward.stops.before (p.1 + 1) p.2.actions).plainId? stem) := by
    rw [Graph.walkFrom, hid, target?_none h hs rfl, filter_plainId?]
  rw [Graph.capability, hfrom, hwalk, hkeys.capabilityFields hn]
  exact congrArg (Checked.orFault "Capability") (hkeys.ofFieldsWith_metadata _)

theorem capabilities_of_restored (h : d.draw stem = .ok g)
    (hkept : ∀ s ∈ d.stations, ∀ a, s.action? = some a → a.Restored)
    (hkeys : ∀ c ∈ d.capabilities, c.KeysApart) :
    g.capabilities = .ok d.normalize.capabilities := by
  have hmem : ∀ p ∈ d.placed, p.2 ∈ d.capabilities :=
    fun p hp => d.map_placed ▸ List.mem_map_of_mem hp
  have hread : List.Forall₂ (fun p n => g.capability n =
      .ok { p.2 with actions := Action.normalize p.2.actions }) d.placed g.entries := by
    have hplaced := (List.forall₂_and_left _ _).mpr ⟨fun _ hp => hp, entries_of_draw h⟩
    refine hplaced.imp ?_
    intro p n hx
    obtain ⟨hp, hn⟩ := hx
    exact capability_of_entry h hkept hp (hkeys p.2 (hmem p hp)) hn
  rw [Graph.capabilities, mapM_eq_ok, Document.normalize, ← d.map_placed, List.map_map,
    List.forall₂_map_right_iff]
  exact hread.flip

theorem capabilities_of_draw (h : d.draw stem = .ok g)
    (hkept : ∀ s ∈ d.stations, ∀ a, s.action? = some a → a.Kept)
    (hkeys : ∀ c ∈ d.capabilities, c.KeysApart) :
    g.capabilities = .ok d.normalize.capabilities :=
  capabilities_of_restored h (fun s hs a ha => (hkept s hs a ha).restored) hkeys

theorem exists_forall₂ {α β : Type} {R : α → β → Prop} {xs : List α}
    (h : ∀ x ∈ xs, ∃ y, R x y) : ∃ ys, List.Forall₂ R xs ys := by
  induction xs with
  | nil => exact ⟨[], .nil⟩
  | cons x xs ih =>
    obtain ⟨y, hy⟩ := h x List.mem_cons_self
    obtain ⟨ys, hys⟩ := ih fun z hz => h z (List.mem_cons_of_mem _ hz)
    exact ⟨y :: ys, .cons hy hys⟩

theorem exists_forall₂_of_forall₂ {α β γ : Type} {R : α → β → Prop} {S : α → γ → Prop}
    {T : β → γ → Prop} {xs : List α} {ys : List β} (h : List.Forall₂ R xs ys)
    (hstep : ∀ x ∈ xs, ∀ y, R x y → ∃ z, S x z ∧ T y z) :
    ∃ zs, List.Forall₂ S xs zs ∧ List.Forall₂ T ys zs := by
  induction h with
  | nil => exact ⟨[], .nil, .nil⟩
  | @cons x y xs ys hxy _ ih =>
    obtain ⟨z, hxz, hyz⟩ := hstep x List.mem_cons_self y hxy
    obtain ⟨zs, hxs, hys⟩ := ih fun w hw => hstep w (List.mem_cons_of_mem _ hw)
    exact ⟨z :: zs, .cons hxz hxs, .cons hyz hys⟩

/-- A document is drawn if the notes in it can be shown. -/
theorem exists_draw_of_shown (stem : String)
    (hnotes : ∀ s ∈ d.stations, ∀ a, s.action? = some a → ∃ shown, shownNote a.config = .ok shown) :
    ∃ g, d.draw stem = .ok g := by
  have hnodes : ∀ i ∈ d.outline.items, ∃ n, Item.node stem i = .ok n := by
    intro i hi
    obtain ⟨s, hs, he⟩ := Document.exists_station_of_item hi
    cases i with
    | capability k c => exact ⟨_, rfl⟩
    | action k a spot =>
      obtain ⟨shown, hshown⟩ := hnotes s hs a (congrArg Prod.snd he)
      exact exists_node_of_shown hshown
  obtain ⟨nodes, hnodes⟩ := exists_forall₂ hnodes
  exact ⟨⟨nodes, d.outline.links.map (Link.edge stem)⟩, draw_eq_ok.mpr ⟨hnodes, rfl⟩⟩

theorem exists_draw_of_digestFits (stem : String)
    (hnotes : ∀ s ∈ d.stations, ∀ a, s.action? = some a → a.DigestFits) :
    ∃ g, d.draw stem = .ok g :=
  exists_draw_of_shown stem fun s hs a ha => Action.shownNote_of_digestFits (hnotes s hs a ha)

theorem exists_draw (stem : String)
    (hkept : ∀ s ∈ d.stations, ∀ a, s.action? = some a → a.Kept) : ∃ g, d.draw stem = .ok g :=
  exists_draw_of_digestFits stem fun s hs a ha => (hkept s hs a ha).note.digestFits

end

namespace Document

/-- A property of every action of a document. -/
def Every (P : Action → Prop) (d : Document) : Prop :=
  ∀ c ∈ d.capabilities, Action.ListEvery P c.actions

/-- Every `if` of a document is the last of its list. -/
def IfsLast (d : Document) : Prop := ∀ c ∈ d.capabilities, Action.ListIfsLast c.actions

theorem normalize_eq_self {d : Document} (h : d.IfsLast) : d.normalize = d := by
  have hmap : d.capabilities.map (fun c => { c with actions := Action.normalize c.actions }) =
      d.capabilities.map id := by
    refine List.map_congr_left fun c hc => ?_
    rw [Action.normalize_eq_self (h c hc), id]
  rw [normalize, hmap, List.map_id]

/-- A property of every action is one of what stands at the stations. -/
theorem every_iff_stations {P : Action → Prop} {d : Document} :
    d.Every P ↔ ∀ s ∈ d.stations, ∀ a, s.action? = some a → P a := by
  constructor
  · intro h s hs a ha
    obtain ⟨p, hp, hsp⟩ := mem_stations.mp hs
    have hc : p.2 ∈ d.capabilities := d.map_placed ▸ List.mem_map_of_mem hp
    rcases Capability.mem_stations.mp hsp with rfl | hsl
    · cases ha
    · exact (Action.listEvery_iff _).mp (h p.2 hc) a (Action.mem_listParts_iff.mpr ⟨s, hsl, ha⟩)
  · intro h c hc
    rw [← d.map_placed, List.mem_map] at hc
    obtain ⟨p, hp, rfl⟩ := hc
    refine (Action.listEvery_iff _).mpr fun a ha => ?_
    obtain ⟨s, hs, hsa⟩ := Action.mem_listParts_iff.mp ha
    exact h s (has_of_placed hp s hs) a hsa

theorem Every.of_mem_stations {P : Action → Prop} {d : Document} (h : d.Every P) :
    ∀ s ∈ d.stations, ∀ a, s.action? = some a → P a :=
  every_iff_stations.mp h

end Document

/-- Reading back the flow that was drawn from a document gives its normal form: nothing but the
place of the actions after an `if` changes, and nothing at all if there are none. -/
theorem rebuild_draw {v : Json} {d : Document} (hv : Document.ofJson v = .accepted d)
    (hstray : d.Every Action.NoStray) (hnotes : d.Every Action.NoteFits) (stem : String) :
    ∃ g, d.draw stem = .ok g ∧ g.rebuildWith d.extra = .ok d.normalize ∧
      g.rebuild v = .ok d.normalize ∧ (d.IfsLast → d.normalize = d) := by
  obtain ⟨⟨fs, rfl, hextra⟩, hparts⟩ := Document.of_ofJson hv
  have hkeys : d.Every Action.KeysApart := fun c hc => (hparts c hc).2
  have hkept : ∀ s ∈ d.stations, ∀ a, s.action? = some a → a.Kept := fun s hs a ha =>
    ⟨hkeys.of_mem_stations s hs a ha, hstray.of_mem_stations s hs a ha,
      hnotes.of_mem_stations s hs a ha⟩
  obtain ⟨g, hg⟩ := exists_draw stem hkept
  have hcapabilities := capabilities_of_draw hg hkept fun c hc => (hparts c hc).1
  refine ⟨g, hg, ?_, ?_, Document.normalize_eq_self⟩
  · rw [Graph.rebuildWith, hcapabilities]
    rfl
  · rw [Graph.rebuild, hcapabilities, documentExtra, ← hextra]
    rfl

theorem rebuild_draw_sample : ∃ g, Document.sample.draw "node" = .ok g ∧
    g.rebuildWith Document.sample.extra = .ok Document.sample.normalize := by
  have hv : Document.ofJson Document.sample.toJson = .accepted Document.sample := rfl
  have hstray : Document.sample.Every Action.NoStray := by
    simp [Document.Every, Document.sample, Action.ListEvery, Action.Every, Action.NoStray,
      Action.others, Action.strayKeys]
  have hnotes : Document.sample.Every Action.NoteFits := by
    simp [Document.Every, Document.sample, Action.ListEvery, Action.Every, Action.NoteFits,
      Action.others, Fields.value, Fields.get?_cons, Fields.get?_nil, noteKey]
  obtain ⟨g, hg, hr, -⟩ := rebuild_draw hv hstray hnotes "node"
  exact ⟨g, hg, hr⟩

end ScriptFlow
