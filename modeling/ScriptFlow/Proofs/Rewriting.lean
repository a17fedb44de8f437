import ScriptFlow.Proofs.Drawn

/-! Documents whose actions have other fields. What an action keeps besides its own keys can be
rewritten by the number of the action without touching the shape of the script: the outline has the
same numbers, spots and links, and each item shows the rewritten action. -/

namespace ScriptFlow

namespace Action

mutual
/-- The action numbered `n` with other fields in it and in the actions in it. -/
def rewrite (f : Nat → Action → Fields) (n : Nat) : Action → Action
  | leaf t fields => leaf t (f n (leaf t fields))
  | branch condition extra thenBody elseBody =>
    branch condition (f n (branch condition extra thenBody elseBody))
      (listRewrite f (n + 1) thenBody) (listRewrite f (n + 1 + listSize thenBody) elseBody)
  | loop head extra body => loop head (f n (loop head extra body)) (listRewrite f (n + 1) body)

def listRewrite (f : Nat → Action → Fields) (n : Nat) : List Action → List Action
  | [] => []
  | a :: as => a.rewrite f n :: listRewrite f (n + a.size) as
end

variable (f : Nat → Action → Fields)

theorem isEmpty_listRewrite (n : Nat) (as : List Action) :
    (listRewrite f n as).isEmpty = as.isEmpty := by
  cases as <;> rfl

mutual
theorem size_rewrite (n : Nat) : (a : Action) → (a.rewrite f n).size = a.size
  | leaf .. => rfl
  | branch _ _ thenBody elseBody => by
    simp only [rewrite, size, listSize_rewrite]
  | loop _ _ body => by
    simp only [rewrite, size, listSize_rewrite]

theorem listSize_rewrite (n : Nat) : (as : List Action) → listSize (listRewrite f n as) = listSize as
  | [] => rfl
  | a :: as => by
    simp only [listRewrite, listSize, size_rewrite, listSize_rewrite]
end

mutual
theorem exits_rewrite (n : Nat) : (a : Action) → (a.rewrite f n).exits n = a.exits n
  | leaf .. => rfl
  | branch _ _ thenBody elseBody => by
    simp only [rewrite, exits, isEmpty_listRewrite, listSize_rewrite, listExits_rewrite]
  | loop .. => rfl

theorem listExits_rewrite (fringe : List Nat) (n : Nat) : (as : List Action) →
    listExits fringe n (listRewrite f n as) = listExits fringe n as
  | [] => rfl
  | a :: as => by
    simp only [listRewrite, listExits, exits_rewrite, size_rewrite, listExits_rewrite]
end

theorem entryLink_rewrite (n m : Nat) (tag : Branch) (first : Nat) (body : List Action) :
    entryLink n tag first (listRewrite f m body) = entryLink n tag first body := by
  rw [entryLink, entryLink, isEmpty_listRewrite]

mutual
theorem links_rewrite (n : Nat) : (a : Action) → (a.rewrite f n).links n = a.links n
  | leaf .. => rfl
  | branch _ _ thenBody elseBody => by
    simp only [rewrite, links, listSize_rewrite, listLinks_rewrite, entryLink_rewrite]
  | loop _ _ body => by
    simp only [rewrite, links, listLinks_rewrite, entryLink_rewrite, listExits_rewrite]

theorem listLinks_rewrite (fringe : List Nat) (n : Nat) : (as : List Action) →
    listLinks fringe n (listRewrite f n as) = listLinks fringe n as
  | [] => rfl
  | a :: as => by
    simp only [listRewrite, listLinks, links_rewrite, exits_rewrite, size_rewrite,
      listLinks_rewrite]
end

end Action

namespace Capability

/-- The capability whose entry has the number `n` with other fields in its actions. -/
def rewrite (f : Nat → Action → Fields) (n : Nat) (c : Capability) : Capability :=
  { c with actions := Action.listRewrite f (n + 1) c.actions }

end Capability

/-- The item of a rewritten action or of a capability of rewritten actions. -/
def Item.rewrite (f : Nat → Action → Fields) : Item → Item
  | capability n c => .capability n (c.rewrite f n)
  | action n a spot => .action n (a.rewrite f n) spot

namespace Action

variable (f : Nat → Action → Fields)

mutual
theorem items_rewrite (n : Nat) (spot : Spot) : (a : Action) →
    (a.rewrite f n).items n spot = (a.items n spot).map (Item.rewrite f)
  | leaf .. => rfl
  | branch _ _ thenBody elseBody => by
    simp only [rewrite, items, listSize_rewrite, listItems_rewrite, List.map_cons, List.map_append,
      Item.rewrite]
  | loop _ _ body => by
    simp only [rewrite, items, listItems_rewrite, List.map_cons, Item.rewrite]

theorem listItems_rewrite (n : Nat) (spot : Spot) : (as : List Action) →
    listItems n spot (listRewrite f n as) = (listItems n spot as).map (Item.rewrite f)
  | [] => rfl
  | a :: as => by
    simp only [listRewrite, listItems, items_rewrite, size_rewrite, listItems_rewrite,
      List.map_append]
end

end Action

namespace Document

/-- The document with other fields in its actions. -/
def rewrite (f : Nat → Action → Fields) (d : Document) : Document :=
  { d with capabilities := collect (fun n c => [c.rewrite f n]) 1 d.capabilities }

/-- Parts that fit each other before and after fit in the whole document. -/
theorem collect_rewrite {α : Type} (f : Nat → Action → Fields) (F : α → α)
    {part : Nat → Capability → List α}
    (hpart : ∀ n c, part n (c.rewrite f n) = (part n c).map F) (n : Nat) (cs : List Capability) :
    collect part n (collect (fun n c => [c.rewrite f n]) n cs) = (collect part n cs).map F := by
  induction cs generalizing n with
  | nil => rfl
  | cons c cs ih =>
    have hsize : (c.rewrite f n).size = c.size := by
      rw [Capability.rewrite, Capability.size, Capability.size, Action.listSize_rewrite]
    simp only [collect, List.singleton_append, hsize, hpart, ih, List.map_append]

theorem items_rewrite (f : Nat → Action → Fields) (d : Document) :
    (d.rewrite f).outline.items = d.outline.items.map (Item.rewrite f) := by
  refine collect_rewrite f (Item.rewrite f) (fun n c => ?_) 1 d.capabilities
  simp only [Capability.items, Capability.rewrite, Capability.title, Action.listItems_rewrite,
    List.map_cons, Item.rewrite]

theorem links_rewrite (f : Nat → Action → Fields) (d : Document) :
    (d.rewrite f).outline.links = d.outline.links := by
  have hpart : ∀ n c, Capability.links n (c.rewrite f n) = (Capability.links n c).map id := by
    intro n c
    rw [List.map_id, Capability.links, Capability.rewrite, Action.listLinks_rewrite,
      Capability.links]
  exact (collect_rewrite f id hpart 1 d.capabilities).trans (List.map_id _)

theorem draw_rewrite {f : Nat → Action → Fields} {d : Document} {stem : String} {nodes : List Node}
    (h : List.Forall₂ (fun i n => (Item.rewrite f i).node stem = .ok n) d.outline.items nodes) :
    (d.rewrite f).draw stem = .ok ⟨nodes, d.outline.links.map (Link.edge stem)⟩ := by
  refine draw_eq_ok.mpr ⟨?_, ?_⟩
  · rw [items_rewrite, List.forall₂_map_left_iff]
    exact h
  · rw [links_rewrite]

end Document

end ScriptFlow
