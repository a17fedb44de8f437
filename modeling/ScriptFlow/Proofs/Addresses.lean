import ScriptFlow.Proofs.Preorder
import Mathlib.Data.List.Induction
import Mathlib.Data.List.Pairwise

/-! Where the pieces of a document stand. The way down to a piece is a list of turns, and the order of
these lists in which a way comes before those that go on from it is the pre-order. The items of the
outline are the pieces in this order, and the spot of an item is told by the turns to it. -/

namespace ScriptFlow

/-- A list of pieces in a piece. -/
inductive Slot where
  | capabilities
  | actions
  | thenBody
  | elseBody
  | loopBody
deriving DecidableEq

/-- The branch that a list is. -/
def Slot.side? : Slot → Option Side
  | thenBody => some .thenSide
  | elseBody => some .elseSide
  | _ => none

/-- A turn into a list, to the piece with an index. -/
structure Turn where
  slot : Slot
  index : Nat
deriving DecidableEq

inductive Piece where
  | document (d : Document)
  | capability (c : Capability)
  | action (a : Action)

namespace Piece

def under : Piece → Slot → List Piece
  | document d, .capabilities => d.capabilities.map capability
  | capability c, .actions => c.actions.map action
  | action (.branch _ _ thenBody _), .thenBody => thenBody.map action
  | action (.branch _ _ _ elseBody), .elseBody => elseBody.map action
  | action (.loop _ _ body), .loopBody => body.map action
  | _, _ => []

def child? (x : Piece) (t : Turn) : Option Piece := (x.under t.slot)[t.index]?

/-- The piece to which the turns lead. -/
def at? (x : Piece) (path : List Turn) : Option Piece := path.foldlM child? x

/-- The name of a capability. -/
def title : Piece → String
  | capability c => c.title
  | _ => ""

theorem at?_append (x : Piece) (path rest : List Turn) :
    x.at? (path ++ rest) = (x.at? path).bind (·.at? rest) :=
  List.foldlM_append

theorem at?_cons (x : Piece) (t : Turn) (rest : List Turn) :
    x.at? (t :: rest) = (x.child? t).bind (·.at? rest) :=
  List.foldlM_cons

theorem at?_concat (x : Piece) (path : List Turn) (t : Turn) :
    x.at? (path ++ [t]) = (x.at? path).bind (·.child? t) := by
  simp [at?]

/-- The first piece has the second one in a list of its own. -/
inductive Holds : Piece → Slot → Piece → Prop
  | capability {d : Document} {c : Capability} : c ∈ d.capabilities →
      Holds (document d) .capabilities (capability c)
  | action {c : Capability} {a : Action} : a ∈ c.actions → Holds (capability c) .actions (action a)
  | thenBody {condition : Option Json} {extra : Fields} {ts es : List Action} {a : Action} :
      a ∈ ts → Holds (action (.branch condition extra ts es)) .thenBody (action a)
  | elseBody {condition : Option Json} {extra : Fields} {ts es : List Action} {a : Action} :
      a ∈ es → Holds (action (.branch condition extra ts es)) .elseBody (action a)
  | loopBody {head : LoopHead} {extra : Fields} {bs : List Action} {a : Action} :
      a ∈ bs → Holds (action (.loop head extra bs)) .loopBody (action a)

theorem holds_of_child? {x y : Piece} {t : Turn} (h : x.child? t = some y) : x.Holds t.slot y := by
  have hmem := List.mem_of_getElem? h
  unfold under at hmem
  split at hmem
  case h_1 d hslot =>
    obtain ⟨c, hc, rfl⟩ := List.mem_map.mp hmem
    exact hslot ▸ .capability hc
  case h_2 c hslot =>
    obtain ⟨a, ha, rfl⟩ := List.mem_map.mp hmem
    exact hslot ▸ .action ha
  case h_3 hslot =>
    obtain ⟨a, ha, rfl⟩ := List.mem_map.mp hmem
    exact hslot ▸ .thenBody ha
  case h_4 hslot =>
    obtain ⟨a, ha, rfl⟩ := List.mem_map.mp hmem
    exact hslot ▸ .elseBody ha
  case h_5 hslot =>
    obtain ⟨a, ha, rfl⟩ := List.mem_map.mp hmem
    exact hslot ▸ .loopBody ha
  case h_6 => exact absurd hmem List.not_mem_nil

theorem child?_ne_document (x : Piece) (t : Turn) (d : Document) :
    x.child? t ≠ some (.document d) := by
  intro h
  have hholds := holds_of_child? h
  generalize t.slot = slot at hholds
  cases hholds

/-- Capabilities stand in documents only. -/
theorem of_child?_eq_capability {x : Piece} {t : Turn} {c : Capability}
    (h : x.child? t = some (.capability c)) : t.slot = .capabilities ∧ ∃ d, x = .document d := by
  have hholds := holds_of_child? h
  generalize t.slot = slot at hholds
  cases hholds with
  | capability => exact ⟨rfl, _, rfl⟩

/-- Actions stand in capabilities, and in the bodies of actions. -/
theorem of_child?_eq_action {x : Piece} {t : Turn} {a : Action}
    (h : x.child? t = some (.action a)) :
    t.slot = .actions ∧ (∃ c, x = .capability c) ∨
      t.slot ∈ [.thenBody, .elseBody, .loopBody] ∧ ∃ b, x = .action b := by
  have hholds := holds_of_child? h
  generalize t.slot = slot at hholds
  cases hholds with
  | action => exact Or.inl ⟨rfl, _, rfl⟩
  | _ => exact Or.inr ⟨by decide, _, rfl⟩

/-- The body of a loop is in loops only, and they have no other list. -/
theorem slot_eq_loopBody_iff {x y : Piece} {t : Turn} (h : x.child? t = some y) :
    t.slot = .loopBody ↔ ∃ head extra body, x = .action (.loop head extra body) := by
  have hholds := holds_of_child? h
  generalize t.slot = slot at hholds
  cases hholds <;> simp

/-- One of the pieces around what the turns lead to is a loop. -/
def InLoop (x : Piece) (path : List Turn) : Prop :=
  ∃ outer t rest head extra body, path = outer ++ t :: rest ∧
    x.at? outer = some (.action (.loop head extra body))

theorem any_loopBody_iff {x y : Piece} {path : List Turn} (h : x.at? path = some y) :
    path.any (·.slot = .loopBody) ↔ x.InLoop path := by
  -- a turn that is taken leads from a piece to another one
  have hturn : ∀ {outer t rest}, path = outer ++ t :: rest →
      ∃ z w, x.at? outer = some z ∧ z.child? t = some w := by
    rintro outer t rest rfl
    rw [at?_append, Option.bind_eq_some_iff] at h
    obtain ⟨z, hz, h⟩ := h
    rw [at?_cons, Option.bind_eq_some_iff] at h
    obtain ⟨w, hw, -⟩ := h
    exact ⟨z, w, hz, hw⟩
  constructor
  · intro hany
    obtain ⟨t, ht, hslot⟩ := List.any_eq_true.mp hany
    obtain ⟨outer, rest, hpath⟩ := List.append_of_mem ht
    obtain ⟨z, w, hz, hw⟩ := hturn hpath
    obtain ⟨head, extra, body, rfl⟩ := (slot_eq_loopBody_iff hw).mp (by simpa using hslot)
    exact ⟨outer, t, rest, head, extra, body, hpath, hz⟩
  · rintro ⟨outer, t, rest, head, extra, body, hpath, hloop⟩
    obtain ⟨z, w, hz, hw⟩ := hturn hpath
    obtain rfl := Option.some.inj (hz.symm.trans hloop)
    have hslot := (slot_eq_loopBody_iff hw).mpr ⟨head, extra, body, rfl⟩
    exact List.any_eq_true.mpr ⟨t, by simp [hpath], by simpa using hslot⟩

end Piece

namespace Turn

/-- Turns into one list go by their indices, and those into the first branch go before those into the
second one. -/
inductive Before : Turn → Turn → Prop
  | index {slot : Slot} {i j : Nat} : i < j → Before ⟨slot, i⟩ ⟨slot, j⟩
  | side (i j : Nat) : Before ⟨.thenBody, i⟩ ⟨.elseBody, j⟩

/-- A way goes before those that go on from it, and else as the turns where they part. -/
def Ahead : List Turn → List Turn → Prop := List.Lex Before

end Turn

/-- A piece with its number and its spot. -/
structure Post where
  number : Nat
  piece : Piece
  spot : Spot

namespace Post

/-- The spot of the first piece in a list. -/
def spotUnder (x : Post) : Slot → Spot
  | .capabilities => x.spot
  | .actions => .top x.piece.title
  | .thenBody => x.spot.inBranch x.number .thenSide
  | .elseBody => x.spot.inBranch x.number .elseSide
  | .loopBody => x.spot.inBody x.number

/-- The turn leads from the one to the other. -/
structure Leads (x : Post) (t : Turn) (y : Post) : Prop where
  piece : x.piece.child? t = some y.piece
  spot : y.spot = if t.index = 0 then x.spotUnder t.slot else (x.spotUnder t.slot).next

section

variable {x y : Post} {t : Turn}

theorem Leads.capability (h : x.Leads t y) :
    y.spot.capability = (x.spotUnder t.slot).capability := by
  rw [h.spot]
  split <;> rfl

theorem Leads.parent (h : x.Leads t y) : y.spot.parent = (x.spotUnder t.slot).parent := by
  rw [h.spot]
  split <;> rfl

theorem Leads.inLoop (h : x.Leads t y) : y.spot.inLoop = (x.spotUnder t.slot).inLoop := by
  rw [h.spot]
  split <;> rfl

theorem Leads.firstOf (h : x.Leads t y) :
    y.spot.firstOf = if t.index = 0 then (x.spotUnder t.slot).firstOf else none := by
  rw [h.spot]
  split <;> rfl

end

def item? : Post → Option Item
  | ⟨n, .capability c, _⟩ => some (.capability n c)
  | ⟨n, .action a, spot⟩ => some (.action n a spot)
  | ⟨_, .document _, _⟩ => none

end Post

/-- A post with the turns that lead to it. -/
abbrev Site := List Turn × Post

/-- The sites are those of a post and of all pieces in it, in pre-order. -/
structure Grove (x : Post) (sites : List Site) : Prop where
  root : ([], x) ∈ sites
  sorted : (sites.map Prod.fst).Pairwise Turn.Ahead
  up : ∀ s ∈ sites, s = ([], x) ∨ ∃ path t y, s.1 = path ++ [t] ∧ (path, y) ∈ sites ∧ y.Leads t s.2
  down : ∀ s ∈ sites, ∀ t y, s.2.piece.child? t = some y → ∃ z, (s.1 ++ [t], z) ∈ sites

/-- One of the pieces in a post, with the turn to it and the sites in it. -/
structure Kid where
  turn : Turn
  post : Post
  sites : List Site

/-- The sites of a kid, as they are found from the post around it. -/
def Kid.lifted (k : Kid) : List Site := k.sites.map fun s => (k.turn :: s.1, s.2)

theorem Kid.mem_lifted {k : Kid} {s : Site} :
    s ∈ k.lifted ↔ ∃ path, s.1 = k.turn :: path ∧ (path, s.2) ∈ k.sites := by
  rw [lifted, List.mem_map]
  constructor
  · rintro ⟨s, hs, rfl⟩
    exact ⟨s.1, rfl, hs⟩
  · rintro ⟨path, hpath, hs⟩
    exact ⟨_, hs, by rw [← hpath]⟩

/-- A post and the sites of all pieces in it, in the order of the turns to them. -/
theorem grove_of_kids {x : Post} {kids : List Kid} (hturns : (kids.map Kid.turn).Pairwise Turn.Before)
    (hkids : ∀ k ∈ kids, x.Leads k.turn k.post ∧ Grove k.post k.sites)
    (hall : ∀ t y, x.piece.child? t = some y → ∃ k ∈ kids, k.turn = t) :
    Grove x (([], x) :: kids.flatMap Kid.lifted) := by
  have hlift : ∀ {k path y}, k ∈ kids → (path, y) ∈ k.sites →
      (k.turn :: path, y) ∈ ([], x) :: kids.flatMap Kid.lifted := fun {k path y} hk hs =>
    List.mem_cons_of_mem _ (List.mem_flatMap.mpr ⟨k, hk, Kid.mem_lifted.mpr ⟨path, rfl, hs⟩⟩)
  refine ⟨List.mem_cons_self, ?_, ?_, ?_⟩
  · rw [List.map_cons, List.pairwise_cons, List.map_flatMap, List.pairwise_flatMap]
    have hpaths : ∀ k : Kid, k.lifted.map Prod.fst = (k.sites.map Prod.fst).map (k.turn :: ·) := by
      intro k
      rw [Kid.lifted, List.map_map, List.map_map]
      rfl
    refine ⟨?_, ?_, ?_⟩
    · intro path hpath
      obtain ⟨k, -, hpath⟩ := List.mem_flatMap.mp hpath
      rw [hpaths, List.mem_map] at hpath
      obtain ⟨rest, -, rfl⟩ := hpath
      exact .nil
    · intro k hk
      rw [hpaths, List.pairwise_map]
      exact (hkids k hk).2.sorted.imp fun h => .cons h
    · refine (List.pairwise_map.mp hturns).imp fun {k k'} hk path hpath path' hpath' => ?_
      rw [hpaths, List.mem_map] at hpath hpath'
      obtain ⟨rest, -, rfl⟩ := hpath
      obtain ⟨rest', -, rfl⟩ := hpath'
      exact .rel hk
  · intro s hs
    rcases List.mem_cons.mp hs with hs | hs
    · exact Or.inl hs
    obtain ⟨k, hk, hs⟩ := List.mem_flatMap.mp hs
    obtain ⟨path, hpath, hs⟩ := Kid.mem_lifted.mp hs
    obtain ⟨hleads, hgrove⟩ := hkids k hk
    refine Or.inr ?_
    rcases hgrove.up _ hs with heq | ⟨path', t, y, rfl, hy, hl⟩
    · -- the kid itself
      obtain ⟨rfl, hpost⟩ := Prod.mk.inj heq
      exact ⟨[], k.turn, x, hpath, List.mem_cons_self, hpost ▸ hleads⟩
    · exact ⟨k.turn :: path', t, y, hpath, hlift hk hy, hl⟩
  · intro s hs t y hy
    rcases List.mem_cons.mp hs with rfl | hs
    · obtain ⟨k, hk, rfl⟩ := hall t y hy
      exact ⟨k.post, hlift hk (hkids k hk).2.root⟩
    · obtain ⟨k, hk, hs⟩ := List.mem_flatMap.mp hs
      obtain ⟨path, hpath, hs⟩ := Kid.mem_lifted.mp hs
      obtain ⟨z, hz⟩ := (hkids k hk).2.down _ hs t y hy
      exact ⟨z, hpath ▸ hlift hk hz⟩

section

variable {α : Type} (piece : α → Piece) (size : α → Nat) (sites : Nat → Spot → α → List Site)

/-- The kids in a list, the first with the index `k` and the number `n`. -/
def kids (slot : Slot) (k n : Nat) (spot : Spot) : List α → List Kid
  | [] => []
  | a :: as => ⟨⟨slot, k⟩, ⟨n, piece a, spot⟩, sites n spot a⟩ ::
      kids slot (k + 1) (n + size a) spot.next as

variable {piece size sites} {slot : Slot} {k n : Nat} {spot : Spot} {as : List α}

theorem turn_kids : (kids piece size sites slot k n spot as).map Kid.turn =
    (List.range' k as.length).map (Turn.mk slot) := by
  induction as generalizing k n spot with
  | nil => rfl
  | cons a as ih =>
    rw [kids, List.map_cons, ih, List.length_cons, List.range'_succ, List.map_cons]

theorem pairwise_turn_kids :
    ((kids piece size sites slot k n spot as).map Kid.turn).Pairwise Turn.Before := by
  rw [turn_kids, List.pairwise_map]
  exact List.Pairwise.imp (fun h => .index h) (List.pairwise_lt_range' (s := k) (n := as.length))

theorem exists_kid {t : Turn} {y : Piece} (h : (as.map piece)[t.index]? = some y)
    (hslot : t.slot = slot) : ∃ kid ∈ kids piece size sites slot 0 n spot as, kid.turn = t := by
  rw [← List.mem_map, turn_kids, List.mem_map]
  have hlt := (List.getElem?_eq_some_iff.mp h).1
  rw [List.length_map] at hlt
  exact ⟨t.index, List.mem_range'_1.mpr (by omega), by rw [← hslot]⟩

theorem mem_kids {kid : Kid} (h : kid ∈ kids piece size sites slot k n spot as) :
    ∃ j a m, as[j]? = some a ∧ kid.turn = ⟨slot, k + j⟩ ∧
      kid.post = ⟨m, piece a, if j = 0 then spot else spot.next⟩ ∧
      kid.sites = sites m kid.post.spot a := by
  induction as generalizing k n spot with
  | nil => exact absurd h List.not_mem_nil
  | cons a as ih =>
    rcases List.mem_cons.mp h with rfl | h
    · exact ⟨0, a, n, rfl, rfl, rfl, rfl⟩
    · obtain ⟨j, b, m, hb, hturn, hpost, hsites⟩ := ih h
      refine ⟨j + 1, b, m, hb, by rw [hturn]; congr 1; omega, ?_, hsites⟩
      rw [hpost]
      split <;> rfl

/-- The turns lead from the post around a list to the kids in it. -/
theorem leads_of_mem_kids {x : Post} (hunder : x.piece.under slot = as.map piece)
    (hspot : x.spotUnder slot = spot) {kid : Kid}
    (h : kid ∈ kids piece size sites slot 0 n spot as) : x.Leads kid.turn kid.post := by
  obtain ⟨j, a, m, ha, hturn, hpost, -⟩ := mem_kids h
  refine ⟨?_, ?_⟩
  · rw [Piece.child?, hturn, hpost, hunder, Nat.zero_add, List.getElem?_map, ha]
    rfl
  · rw [hturn, hpost, hspot, Nat.zero_add]

theorem grove_of_mem_kids
    (hsites : ∀ a ∈ as, ∀ m spot, Grove ⟨m, piece a, spot⟩ (sites m spot a)) {kid : Kid}
    (h : kid ∈ kids piece size sites slot k n spot as) : Grove kid.post kid.sites := by
  obtain ⟨j, a, m, ha, -, hpost, hk⟩ := mem_kids h
  rw [hk, hpost]
  exact hsites a (List.mem_of_getElem? ha) m _

end

namespace Action

mutual
/-- The sites of an action with the number `n` and of the actions in it. -/
def sites (n : Nat) (spot : Spot) : Action → List Site
  | leaf t fields => [([], ⟨n, .action (leaf t fields), spot⟩)]
  | branch condition extra thenBody elseBody =>
    ([], ⟨n, .action (branch condition extra thenBody elseBody), spot⟩) ::
      (listSites .thenBody 0 (n + 1) (spot.inBranch n .thenSide) thenBody ++
        listSites .elseBody 0 (n + 1 + listSize thenBody) (spot.inBranch n .elseSide) elseBody)
  | loop head extra body =>
    ([], ⟨n, .action (loop head extra body), spot⟩) ::
      listSites .loopBody 0 (n + 1) (spot.inBody n) body

/-- The sites of the actions in a list, the first with the index `k` and the number `n`. -/
def listSites (slot : Slot) (k n : Nat) (spot : Spot) : List Action → List Site
  | [] => []
  | a :: as => (a.sites n spot).map (fun s => (⟨slot, k⟩ :: s.1, s.2)) ++
      listSites slot (k + 1) (n + a.size) spot.next as
end

/-- The actions in a list. -/
abbrev kids (slot : Slot) (k n : Nat) (spot : Spot) (as : List Action) : List Kid :=
  ScriptFlow.kids Piece.action size sites slot k n spot as

theorem listSites_eq (slot : Slot) (k n : Nat) (spot : Spot) (as : List Action) :
    listSites slot k n spot as = (kids slot k n spot as).flatMap Kid.lifted := by
  induction as generalizing k n spot with
  | nil => rfl
  | cons a as ih =>
    rw [listSites, ih]
    rfl

mutual
theorem grove (n : Nat) (spot : Spot) : (a : Action) → Grove ⟨n, .action a, spot⟩ (a.sites n spot)
  | leaf t fields => by
    refine @grove_of_kids _ [] .nil (fun _ hk => absurd hk List.not_mem_nil) ?_
    intro t y hy
    cases hy
  | branch condition extra thenBody elseBody => by
    rw [sites, listSites_eq, listSites_eq, ← List.flatMap_append]
    refine grove_of_kids ?_ ?_ ?_
    · rw [List.map_append, List.pairwise_append]
      refine ⟨pairwise_turn_kids, pairwise_turn_kids, ?_⟩
      rw [turn_kids, turn_kids]
      intro t ht t' ht'
      obtain ⟨i, -, rfl⟩ := List.mem_map.mp ht
      obtain ⟨j, -, rfl⟩ := List.mem_map.mp ht'
      exact .side i j
    · intro kid hk
      rcases List.mem_append.mp hk with hk | hk
      · exact ⟨leads_of_mem_kids rfl rfl hk, grove_of_mem_kids (listGrove thenBody) hk⟩
      · exact ⟨leads_of_mem_kids rfl rfl hk, grove_of_mem_kids (listGrove elseBody) hk⟩
    · rintro ⟨slot, i⟩ y hy
      cases slot with
      | thenBody =>
        obtain ⟨kid, hk, hturn⟩ := exists_kid hy rfl
        exact ⟨kid, List.mem_append_left _ hk, hturn⟩
      | elseBody =>
        obtain ⟨kid, hk, hturn⟩ := exists_kid hy rfl
        exact ⟨kid, List.mem_append_right _ hk, hturn⟩
      | _ => cases hy
  | loop head extra body => by
    rw [sites, listSites_eq]
    refine grove_of_kids pairwise_turn_kids ?_ ?_
    · intro kid hk
      exact ⟨leads_of_mem_kids rfl rfl hk, grove_of_mem_kids (listGrove body) hk⟩
    · rintro ⟨slot, i⟩ y hy
      cases slot with
      | loopBody => exact exists_kid hy rfl
      | _ => cases hy

theorem listGrove : (as : List Action) → ∀ a ∈ as, ∀ n spot,
    Grove ⟨n, .action a, spot⟩ (a.sites n spot)
  | a :: as, b, hb, n, spot => by
    rcases List.mem_cons.mp hb with hb | hb
    · rw [hb]
      exact grove n spot a
    · exact listGrove as b hb n spot
end

mutual
/-- The items of an action are the posts of its sites. -/
theorem item?_sites (n : Nat) (spot : Spot) : (a : Action) →
    (a.sites n spot).map (·.2.item?) = (a.items n spot).map some
  | leaf .. => rfl
  | branch _ _ thenBody elseBody => by
    simp only [sites, items, List.map_cons, List.map_append, item?_listSites]
    rfl
  | loop _ _ body => by
    simp only [sites, items, List.map_cons, item?_listSites]
    rfl

theorem item?_listSites (slot : Slot) (k n : Nat) (spot : Spot) : (as : List Action) →
    (listSites slot k n spot as).map (·.2.item?) = (listItems n spot as).map some
  | [] => rfl
  | a :: as => by
    simp only [listSites, listItems, List.map_append, List.map_map, ← item?_sites n spot a,
      item?_listSites]
    rfl
end

end Action

namespace Capability

def sites (n : Nat) (spot : Spot) (c : Capability) : List Site :=
  ([], ⟨n, .capability c, spot⟩) :: Action.listSites .actions 0 (n + 1) (.top c.title) c.actions

theorem grove (n : Nat) (spot : Spot) (c : Capability) :
    Grove ⟨n, .capability c, spot⟩ (c.sites n spot) := by
  rw [sites, Action.listSites_eq]
  refine grove_of_kids pairwise_turn_kids ?_ ?_
  · intro kid hk
    exact ⟨leads_of_mem_kids rfl rfl hk, grove_of_mem_kids (Action.listGrove c.actions) hk⟩
  · rintro ⟨slot, i⟩ y hy
    cases slot with
    | actions => exact exists_kid hy rfl
    | _ => cases hy

theorem item?_sites (n : Nat) (spot : Spot) (c : Capability) :
    (c.sites n spot).map (·.2.item?) = (c.items n).map some := by
  rw [sites, List.map_cons, Action.item?_listSites]
  rfl

end Capability

namespace Document

/-- The document itself, before all of its pieces. -/
def post (d : Document) : Post := ⟨0, .document d, .top ""⟩

def sites (d : Document) : List Site :=
  (kids Piece.capability Capability.size Capability.sites .capabilities 0 1 (.top "")
    d.capabilities).flatMap Kid.lifted

variable {d : Document}

theorem grove (d : Document) : Grove d.post (([], d.post) :: d.sites) := by
  refine grove_of_kids pairwise_turn_kids ?_ ?_
  · intro kid hk
    exact ⟨leads_of_mem_kids rfl rfl hk, grove_of_mem_kids (fun c _ n spot => c.grove n spot) hk⟩
  · rintro ⟨slot, i⟩ y hy
    cases slot with
    | capabilities => exact exists_kid hy rfl
    | _ => cases hy

theorem item?_sites (d : Document) :
    d.sites.map (·.2.item?) = d.outline.items.map some := by
  have hcollect : ∀ (k n : Nat) (spot : Spot) (cs : List Capability),
      ((kids Piece.capability Capability.size Capability.sites .capabilities k n spot cs).flatMap
        Kid.lifted).map (·.2.item?) = (collect Capability.items n cs).map some := by
    intro k n spot cs
    induction cs generalizing k n spot with
    | nil => rfl
    | cons c cs ih =>
      rw [kids, List.flatMap_cons, List.map_append, ih, collect, List.map_append,
        ← c.item?_sites n spot, Kid.lifted, List.map_map]
      rfl
  exact hcollect 0 1 (.top "") d.capabilities

theorem length_sites (d : Document) : d.sites.length = d.outline.items.length := by
  rw [← List.length_map (·.2.item?), d.item?_sites, List.length_map]

/-- The sites are numbered in their order. -/
theorem number_sites (d : Document) : d.sites.map (·.2.number) = List.range' 1 d.sites.length := by
  have hitem : ∀ s ∈ d.sites, (s.2.item?.map fun i => i.numbered.1).getD 0 = s.2.number := by
    intro s hs
    have hmem : s.2.item? ∈ d.sites.map (·.2.item?) := List.mem_map_of_mem hs
    rw [item?_sites, List.mem_map] at hmem
    obtain ⟨i, -, hi⟩ := hmem
    rw [← hi]
    obtain ⟨path, n, piece, spot⟩ := s
    cases piece <;> cases hi <;> rfl
  have hlength : d.stations.length = d.outline.items.length := by
    rw [← List.length_map Station.number, ← number_items, List.length_map]
  calc d.sites.map (·.2.number)
      = (d.sites.map (·.2.item?)).map fun i? => (i?.map fun i => i.numbered.1).getD 0 := by
        rw [List.map_map]
        exact (List.map_congr_left hitem).symm
    _ = d.outline.items.map fun i => i.numbered.1 := by
        rw [item?_sites, List.map_map]
        rfl
    _ = List.range' 1 d.sites.length := by
        rw [number_items, number_stations, hlength, length_sites]

/-- The post around a site that is not the whole document. -/
theorem exists_leads {path : List Turn} {t : Turn} {y : Post}
    (h : (path ++ [t], y) ∈ ([], d.post) :: d.sites) :
    ∃ z, (path, z) ∈ ([], d.post) :: d.sites ∧ z.Leads t y := by
  rcases d.grove.up _ h with heq | ⟨path', t', z, hpath, hz, hleads⟩
  · simp at heq
  · obtain ⟨rfl, ht⟩ := List.append_inj' hpath rfl
    obtain rfl := (List.cons.inj ht).1
    exact ⟨z, hz, hleads⟩

/-- A post stands where the turns of its site lead. -/
theorem at?_of_site {path : List Turn} {y : Post} (h : (path, y) ∈ ([], d.post) :: d.sites) :
    (Piece.document d).at? path = some y.piece := by
  induction path using List.reverseRecOn generalizing y with
  | nil =>
    rcases d.grove.up _ h with heq | ⟨path, t, z, hpath, -⟩
    · rw [(Prod.mk.inj heq).2]
      rfl
    · simp at hpath
  | append_singleton path t ih =>
    obtain ⟨z, hz, hleads⟩ := exists_leads h
    rw [Piece.at?_concat, ih hz]
    exact hleads.piece

/-- A site is at a place where something stands, and the other way round. -/
theorem exists_site {path : List Turn} {x : Piece} (h : (Piece.document d).at? path = some x) :
    ∃ y, (path, y) ∈ ([], d.post) :: d.sites := by
  induction path using List.reverseRecOn generalizing x with
  | nil => exact ⟨d.post, List.mem_cons_self⟩
  | append_singleton path t ih =>
    rw [Piece.at?_concat, Option.bind_eq_some_iff] at h
    obtain ⟨z, hz, hx⟩ := h
    obtain ⟨y, hy⟩ := ih hz
    obtain rfl : y.piece = z := Option.some.inj ((at?_of_site hy).symm.trans hz)
    exact d.grove.down _ hy t x hx

theorem mem_sites_iff {path : List Turn} :
    path ∈ d.sites.map Prod.fst ↔ path ≠ [] ∧ ((Piece.document d).at? path).isSome := by
  have hsorted := d.grove.sorted
  rw [List.map_cons, List.pairwise_cons] at hsorted
  constructor
  · intro h
    obtain ⟨⟨_, y⟩, hy, rfl⟩ := List.mem_map.mp h
    refine ⟨?_, ?_⟩
    · rintro hnil
      have hahead := hsorted.1 _ h
      rw [hnil] at hahead
      cases hahead
    · rw [at?_of_site (List.mem_cons_of_mem _ hy)]
      rfl
  · rintro ⟨hne, hsome⟩
    obtain ⟨x, hx⟩ := Option.isSome_iff_exists.mp hsome
    obtain ⟨y, hy⟩ := exists_site hx
    rcases List.mem_cons.mp hy with heq | hy
    · exact absurd (Prod.mk.inj heq).1 hne
    · exact List.mem_map_of_mem hy

theorem eq_nil_of_document {path : List Turn} {y : Post} {e : Document}
    (h : (path, y) ∈ ([], d.post) :: d.sites) (hy : y.piece = .document e) : path = [] := by
  induction path using List.reverseRecOn with
  | nil => rfl
  | append_singleton path t =>
    obtain ⟨z, -, hleads⟩ := exists_leads h
    exact absurd (hleads.piece.trans (congrArg some hy)) (z.piece.child?_ne_document t e)

/-- One turn leads to a capability. -/
theorem exists_turn_of_capability {path : List Turn} {y : Post} {c : Capability}
    (h : (path, y) ∈ ([], d.post) :: d.sites) (hy : y.piece = .capability c) :
    ∃ i, path = [⟨.capabilities, i⟩] := by
  induction path using List.reverseRecOn with
  | nil =>
    have hpost := (at?_of_site h).symm
    rw [hy] at hpost
    cases hpost
  | append_singleton path t =>
    obtain ⟨z, hz, hleads⟩ := exists_leads h
    obtain ⟨hslot, e, he⟩ :=
      Piece.of_child?_eq_capability (hleads.piece.trans (congrArg some hy))
    obtain rfl := eq_nil_of_document hz he
    exact ⟨t.index, by rw [← hslot]; rfl⟩

theorem ne_nil_of_action {path : List Turn} {y : Post} {a : Action}
    (h : (path, y) ∈ ([], d.post) :: d.sites) (hy : y.piece = .action a) : path ≠ [] := by
  rintro rfl
  have hpost := (at?_of_site h).symm
  rw [hy] at hpost
  cases hpost

/-- The capability around an action is where the first turn leads, and a loop is around it if a turn
leads into the body of one. -/
theorem around_of_site {path : List Turn} {y : Post} {a : Action}
    (h : (path, y) ∈ ([], d.post) :: d.sites) (hy : y.piece = .action a) :
    (∃ c, (Piece.document d).at? (path.take 1) = some (.capability c) ∧
        y.spot.capability = c.title) ∧
      y.spot.inLoop = path.any (·.slot = .loopBody) := by
  induction path using List.reverseRecOn generalizing y a with
  | nil => exact absurd rfl (ne_nil_of_action h hy)
  | append_singleton path t ih =>
    obtain ⟨z, hz, hleads⟩ := exists_leads h
    have hin := hleads.inLoop
    have hcapability := hleads.capability
    rcases Piece.of_child?_eq_action (hleads.piece.trans (congrArg some hy)) with
      ⟨hslot, c, hc⟩ | ⟨hslot, b, hb⟩
    · obtain ⟨i, rfl⟩ := exists_turn_of_capability hz hc
      have hat := at?_of_site hz
      rw [hc] at hat
      rw [hslot] at hin hcapability
      refine ⟨⟨c, hat, ?_⟩, ?_⟩
      · rw [hcapability, Post.spotUnder, hc]
        rfl
      · rw [hin]
        simp [Post.spotUnder, Spot.top, hslot]
    · obtain ⟨⟨c, hat, hz'⟩, hloop⟩ := ih hz hb
      have htake : (path ++ [t]).take 1 = path.take 1 :=
        List.take_append_of_le_length (List.length_pos_iff.mpr (ne_nil_of_action hz hb))
      rw [htake]
      rw [List.any_append, ← hloop]
      obtain ⟨slot, i⟩ := t
      simp only [List.mem_cons, List.not_mem_nil, or_false] at hslot
      refine ⟨⟨c, hat, ?_⟩, ?_⟩
      · rw [hcapability, ← hz']
        rcases hslot with rfl | rfl | rfl <;> rfl
      · rw [hin]
        rcases hslot with rfl | rfl | rfl <;> simp [Post.spotUnder, Spot.inBranch, Spot.inBody]

/-- What is around an action, and whether it is the first one of a branch, as the last turn to it
says. -/
theorem spot_of_site {path : List Turn} {t : Turn} {y : Post} {a : Action}
    (h : (path ++ [t], y) ∈ ([], d.post) :: d.sites) (hy : y.piece = .action a) :
    ∃ z, (path, z) ∈ d.sites ∧
      y.spot.parent = (if t.slot = .actions then none else some z.number) ∧
      y.spot.firstOf = (if t.index = 0 then t.slot.side? else none) := by
  obtain ⟨z, hz, hleads⟩ := exists_leads h
  obtain ⟨slot, i⟩ := t
  have hparent := hleads.parent
  have hfirst := hleads.firstOf
  have hsite (hpath : path ≠ []) : (path, z) ∈ d.sites :=
    (List.mem_cons.mp hz).resolve_left fun heq => hpath (Prod.mk.inj heq).1
  rcases Piece.of_child?_eq_action (hleads.piece.trans (congrArg some hy)) with
    ⟨hslot, c, hc⟩ | ⟨hslot, b, hb⟩
  · obtain ⟨j, rfl⟩ := exists_turn_of_capability hz hc
    dsimp only at hslot
    subst hslot
    refine ⟨z, hsite (List.cons_ne_nil _ _), hparent, hfirst⟩
  · simp only [List.mem_cons, List.not_mem_nil, or_false] at hslot
    refine ⟨z, hsite (ne_nil_of_action hz hb), ?_, ?_⟩
    · rw [hparent]
      rcases hslot with rfl | rfl | rfl <;> rfl
    · rw [hfirst]
      rcases hslot with rfl | rfl | rfl <;> rfl

end Document

end ScriptFlow
