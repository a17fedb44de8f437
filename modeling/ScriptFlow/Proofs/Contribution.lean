import ScriptFlow.Edit
import ScriptFlow.Proofs.Reach
import ScriptFlow.Proofs.Reading
import ScriptFlow.Session.Basic

/-! What a node contributes to the document that is saved. The actions of a capability stand in the
order in which the walk from its entry met their nodes, so a node contributes if and only if an
entry reaches it. That a flow is valid does not ensure this: a node counts as connected when it is
an end of any edge. -/

namespace ScriptFlow

/-- The action is made from the configuration of the node. -/
def Node.Gives (n : Node) (a : Action) : Prop :=
  n.leaf = .ok a ∨ (∃ thenBody elseBody, a = n.branch thenBody elseBody) ∨ ∃ body, a = n.loop body

/-- The action is made from the node in the way of its kind. -/
inductive Node.Reads (n : Node) : Action → Prop
  | leaf {a : Action} : n.kind = .action → n.leaf = .ok a → Reads n a
  | branch {thenBody elseBody : List Action} : n.kind = .condition →
      Reads n (n.branch thenBody elseBody)
  | loop {body : List Action} : n.kind = .loop → Reads n (n.loop body)

theorem Node.Reads.gives {n : Node} {a : Action} (h : n.Reads a) : n.Gives a := by
  cases h with
  | leaf _ h => exact Or.inl h
  | branch => exact Or.inr (Or.inl ⟨_, _, rfl⟩)
  | loop => exact Or.inr (Or.inr ⟨_, rfl⟩)

theorem Node.eq_leaf_of_leaf {n : Node} {a : Action} (h : n.leaf = .ok a) :
    ∃ type fields, a = .leaf type fields := by
  unfold leaf at h
  split at h
  · cases h
    exact ⟨_, _, rfl⟩
  · cases h

/-- What is made of a loop node is a loop whose other fields have keys of their own. -/
theorem Node.exists_loop_eq (n : Node) (body : List Action) : ∃ head extra,
    n.loop body = .loop head extra body ∧ (Action.loop head extra body).KeysApart := by
  unfold loop
  dsimp only
  split
  · exact ⟨_, _, rfl, fun _ => Fields.not_mem_of_mem_without⟩
  · exact ⟨_, _, rfl, fun _ => Fields.not_mem_of_mem_without⟩

theorem Node.parts_loop (n : Node) (body : List Action) :
    (n.loop body).parts = n.loop body :: Action.listParts body := by
  obtain ⟨head, extra, h, -⟩ := n.exists_loop_eq body
  rw [h]
  rfl

namespace Visit

theorem listToActions_cons_eq_ok {v : Visit} {vs : List Visit} {as : List Action} :
    listToActions (v :: vs) = .ok as ↔
      ∃ b bs, v.toAction = .ok b ∧ listToActions vs = .ok bs ∧ b :: bs = as := by
  simp only [listToActions, bind_eq_ok, Except.ok.injEq]
  constructor
  · intro h
    obtain ⟨b, hb, bs, hbs, rfl⟩ := h
    exact ⟨b, bs, hb, hbs, rfl⟩
  · intro h
    obtain ⟨b, bs, hb, hbs, rfl⟩ := h
    exact ⟨b, hb, bs, hbs, rfl⟩

mutual
/-- The nodes of a visit are nodes of the graph, of the kinds by which a walk tells visits apart. -/
def Of (g : Graph) : Visit → Prop
  | plain n => n ∈ g.nodes ∧ n.kind = .action
  | fork n whenTrue whenFalse =>
    (n ∈ g.nodes ∧ n.kind = .condition) ∧ ListOf g whenTrue ∧ ListOf g whenFalse
  | loop n body => (n ∈ g.nodes ∧ n.kind = .loop) ∧ ListOf g body

def ListOf (g : Graph) : List Visit → Prop
  | [] => True
  | v :: vs => v.Of g ∧ ListOf g vs
end

section

variable {g : Graph}

mutual
theorem reads_of_toAction : (v : Visit) → v.Of g → ∀ {a}, v.toAction = .ok a →
    List.Forall₂ (fun n a => n ∈ g.nodes ∧ n.Reads a) v.nodes a.parts
  | plain n, hv, a, h => by
    obtain ⟨type, fields, rfl⟩ := Node.eq_leaf_of_leaf h
    exact .cons ⟨hv.1, .leaf hv.2 h⟩ .nil
  | fork n whenTrue whenFalse, hv, a, h => by
    obtain ⟨ts, ht, h⟩ := bind_eq_ok.mp h
    obtain ⟨es, he, h⟩ := bind_eq_ok.mp h
    cases h
    refine .cons ⟨hv.1.1, .branch hv.1.2⟩ ?_
    exact List.rel_append (reads_of_listToActions whenTrue hv.2.1 ht)
      (reads_of_listToActions whenFalse hv.2.2 he)
  | loop n body, hv, a, h => by
    obtain ⟨bs, hb, h⟩ := bind_eq_ok.mp h
    cases h
    rw [nodes, n.parts_loop]
    exact .cons ⟨hv.1.1, .loop hv.1.2⟩ (reads_of_listToActions body hv.2 hb)

theorem reads_of_listToActions : (vs : List Visit) → ListOf g vs → ∀ {as},
    listToActions vs = .ok as →
      List.Forall₂ (fun n a => n ∈ g.nodes ∧ n.Reads a) (listNodes vs) (Action.listParts as)
  | [], _, as, h => by
    cases h
    exact .nil
  | v :: vs, hv, as, h => by
    obtain ⟨b, bs, hb, hbs, rfl⟩ := listToActions_cons_eq_ok.mp h
    exact List.rel_append (reads_of_toAction v hv.1 hb) (reads_of_listToActions vs hv.2 hbs)
end

end

end Visit

namespace Graph

theorem requireValid_eq_ok {g : Graph} : g.requireValid = .ok () ↔ g.validate = [] := by
  simp [requireValid]

theorem capabilities_eq_ok {g : Graph} {cs : List Capability} : g.capabilities = .ok cs ↔
    List.Forall₂ (fun entry c => g.capability entry = .ok c) g.entries cs :=
  mapM_eq_ok

/-- A flow is saved if it has no errors and each entry gives a capability. -/
theorem saveWith_eq_ok {g : Graph} {extra : Fields} {d : Document} : g.saveWith extra = .ok d ↔
    g.validate = [] ∧
      List.Forall₂ (fun entry c => g.capability entry = .ok c) g.entries d.capabilities ∧
        d.extra = extra := by
  rw [← requireValid_eq_ok, ← capabilities_eq_ok]
  constructor
  · intro h
    obtain ⟨⟨⟩, hv, h⟩ := bind_eq_ok.mp h
    cases hcs : g.capabilities with
    | error f => simp [rebuildWith, hcs, Except.map] at h
    | ok cs =>
      simp only [rebuildWith, hcs, Except.map, Except.ok.injEq] at h
      cases h
      exact ⟨hv, rfl, rfl⟩
  · intro h
    obtain ⟨hv, hcs, rfl⟩ := h
    refine bind_eq_ok.mpr ⟨(), hv, ?_⟩
    rw [rebuildWith, hcs]
    rfl

theorem save_eq_ok {g : Graph} {base : Json} {d : Document} : g.save base = .ok d ↔
    ∃ extra, documentExtra base = .ok extra ∧ g.saveWith extra = .ok d := by
  simp only [saveWith_eq_ok, ← requireValid_eq_ok, ← capabilities_eq_ok]
  constructor
  · intro h
    obtain ⟨⟨⟩, hv, h⟩ := bind_eq_ok.mp h
    obtain ⟨cs, hcs, h⟩ := bind_eq_ok.mp h
    obtain ⟨extra, he, h⟩ := bind_eq_ok.mp h
    cases h
    exact ⟨extra, he, hv, hcs, rfl⟩
  · intro h
    obtain ⟨extra, he, hv, hcs, rfl⟩ := h
    exact bind_eq_ok.mpr ⟨(), hv, bind_eq_ok.mpr ⟨_, hcs, bind_eq_ok.mpr ⟨_, he, rfl⟩⟩⟩

theorem listOf_walk (g : Graph) (stop visited : List String) (start : Option String) :
    Visit.ListOf g (g.walk stop visited start) := by
  have hmem : ∀ {id n}, g.findLast? id = some n → n ∈ g.nodes :=
    fun hn => (Graph.mem_of_findLast? hn).1
  -- the walk goes on from a condition, a loop and an action, and ends in every other case
  fun_induction Graph.walk g stop visited start with
  | case6 _ _ _ _ _ _ hn hkind ihTrue ihFalse =>
    exact ⟨⟨⟨hmem hn, hkind⟩, ihTrue, ihFalse⟩, trivial⟩
  | case7 _ _ _ _ _ _ hn hkind ihBody ih => exact ⟨⟨⟨hmem hn, hkind⟩, ihBody⟩, ih⟩
  | case8 _ _ _ _ _ _ hn hkind ih => exact ⟨⟨hmem hn, hkind⟩, ih⟩
  | _ => trivial

/-- The node `n` contributes the action `a` to the document `d`: the walk from an entry meets `n`
where `a` stands in the capability of that entry. -/
def Contributes (g : Graph) (d : Document) (n : Node) (a : Action) : Prop :=
  ∃ p ∈ g.entries.zip d.capabilities,
    (n, a) ∈ (Visit.listNodes (g.walkFrom p.1)).zip (Action.listParts p.2.actions)

end Graph

theorem exists_mem_zip {α β : Type} {R : α → β → Prop} {xs : List α} {ys : List β}
    (h : List.Forall₂ R xs ys) {x : α} (hx : x ∈ xs) : ∃ y, (x, y) ∈ xs.zip ys := by
  induction h with
  | nil => exact absurd hx List.not_mem_nil
  | @cons x' y xs ys _ _ ih =>
    rcases List.mem_cons.mp hx with rfl | hx
    · exact ⟨y, List.mem_cons_self⟩
    · obtain ⟨z, hz⟩ := ih hx
      exact ⟨z, List.mem_cons_of_mem _ hz⟩

section

variable {g : Graph} {base : Json} {d : Document} {n : Node} {a : Action}

theorem reads_of_capability {entry : Node} {c : Capability} (h : g.capability entry = .ok c) :
    List.Forall₂ (fun n a => n ∈ g.nodes ∧ n.Reads a) (Visit.listNodes (g.walkFrom entry))
      (Action.listParts c.actions) := by
  obtain ⟨as, has, h⟩ := bind_eq_ok.mp h
  obtain ⟨-, -, -, hactions⟩ := Capability.ofFieldsWith_eq_accepted.mp (Checked.orFault_eq_ok.mp h)
  rw [hactions]
  exact Visit.reads_of_listToActions _ (g.listOf_walk _ _ _) has

theorem gives_of_capability {entry : Node} {c : Capability} (h : g.capability entry = .ok c) :
    List.Forall₂ Node.Gives (Visit.listNodes (g.walkFrom entry)) (Action.listParts c.actions) :=
  (reads_of_capability h).imp fun _ _ h => h.2.gives

theorem capabilities_of_save (h : g.save base = .ok d) :
    List.Forall₂ (fun entry c => g.capability entry = .ok c) g.entries d.capabilities := by
  obtain ⟨extra, -, h⟩ := Graph.save_eq_ok.mp h
  exact (Graph.saveWith_eq_ok.mp h).2.1

/-- In the document that is saved the nodes that an entry reaches have an action, made from their
configuration, and no others. -/
theorem contributes_iff_reached (hids : (g.nodes.map (·.id)).Nodup) (h : g.save base = .ok d) :
    (∀ n, (∃ a, g.Contributes d n a) ↔ ∃ entry ∈ g.entries, g.Reaches entry n) ∧
      ∀ n a, g.Contributes d n a → n.Gives a := by
  have hcs := capabilities_of_save h
  refine ⟨fun n => ⟨?_, ?_⟩, ?_⟩
  · intro hx
    obtain ⟨a, p, hp, hna⟩ := hx
    have hentry := (List.of_mem_zip hp).1
    exact ⟨p.1, hentry, (Graph.mem_walkFrom hids hentry).mp (List.of_mem_zip hna).1⟩
  · intro hx
    obtain ⟨entry, hentry, hr⟩ := hx
    obtain ⟨c, hc⟩ := exists_mem_zip hcs hentry
    have hgives := gives_of_capability (List.forall₂_zip hcs hc)
    obtain ⟨a, ha⟩ := exists_mem_zip hgives ((Graph.mem_walkFrom hids hentry).mpr hr)
    exact ⟨a, (entry, c), hc, ha⟩
  · intro n a hx
    obtain ⟨p, hp, hna⟩ := hx
    exact List.forall₂_zip (gives_of_capability (List.forall₂_zip hcs hp)) hna

end

/-! The flow of four actions without the node of the second one. The last two nodes are the ends of
an edge, and no entry reaches them. -/

/-- A script of one capability with these pauses. -/
def Document.pauses (ms : List Int) : Document :=
  ⟨[⟨some "main", none, none, none, [], ms.map fun t => .leaf "wait" [("ms", .int t)]⟩], []⟩

def islands : Graph :=
  (((Document.pauses [1, 2, 3, 4]).draw "node" >>= (·.deleteNode "node_3")).toOption).getD ⟨[], []⟩

theorem walkFrom_alone {g : Graph} {entry n : Node} {id : String}
    (ht : g.target? entry.id .none = some id) (hne : id ≠ "") (hid : id ≠ entry.id)
    (hn : g.findLast? id = some n) (hkind : n.kind = .action) (hend : g.target? id .none = none) :
    g.walkFrom entry = [.plain n] := by
  have hf : (some id).filter (· ≠ "") = some id := by simp [hne]
  rw [Graph.walkFrom, ht, hf, Graph.walk_some List.not_mem_nil (by simpa using hid) hn, hkind]
  simp only [hend, Graph.walk_none]

/-- The capability of an entry that meets one action. -/
theorem capability_alone {g : Graph} {entry n : Node} {a : Action} {c : Capability}
    (hwalk : g.walkFrom entry = [.plain n]) (ha : n.leaf = .ok a)
    (hc : Capability.ofFieldsWith (Graph.capabilityFields entry) [a] = .accepted c) :
    g.capability entry = .ok c := by
  simp only [Graph.capability, hwalk, Visit.listToActions, Visit.toAction, ha]
  exact Checked.orFault_eq_ok.mpr hc

/-- What is saved of a flow with one entry that meets one action. -/
theorem saveWith_alone {g : Graph} {entry n : Node} {a : Action} {c : Capability} {extra : Fields}
    (hv : g.validate = []) (hentries : g.entries = [entry]) (hwalk : g.walkFrom entry = [.plain n])
    (ha : n.leaf = .ok a)
    (hc : Capability.ofFieldsWith (Graph.capabilityFields entry) [a] = .accepted c) :
    g.saveWith extra = .ok ⟨[c], extra⟩ :=
  Graph.saveWith_eq_ok.mpr ⟨hv, hentries ▸ .cons (capability_alone hwalk ha hc) .nil, rfl⟩

theorem walkFrom_islands : ∀ entry ∈ islands.entries, ∃ n : Node,
    islands.walkFrom entry = [.plain n] ∧ n.id = "node_2" := by
  intro entry he
  obtain rfl := List.mem_singleton.mp he
  exact ⟨_, walkFrom_alone rfl (by decide) (by decide) rfl rfl rfl, rfl⟩

theorem save_islands : islands.save (.obj []) = .ok (Document.pauses [1]) :=
  Graph.save_eq_ok.mpr ⟨[], rfl,
    saveWith_alone rfl rfl (walkFrom_alone rfl (by decide) (by decide) rfl rfl rfl) rfl rfl⟩

theorem contributes_iff_reached_islands : (islands.nodes.map (·.id)).Nodup ∧
    islands.save (.obj []) = .ok (Document.pauses [1]) ∧
      ∃ n ∈ islands.nodes, ∃ a, islands.Contributes (Document.pauses [1]) n a := by
  have hids : (islands.nodes.map (·.id)).Nodup := by decide
  have hfirst : ¬ islands.nodes[1].isEntry := by decide
  refine ⟨hids, save_islands, islands.nodes[1], List.getElem_mem _, ?_⟩
  refine ((contributes_iff_reached hids save_islands).1 _).mpr ?_
  refine ⟨islands.nodes[0], List.mem_singleton_self _, "node_2", ⟨rfl, by decide⟩, ?_⟩
  exact .here (List.getElem_mem _) hfirst List.not_mem_nil

/-- The flow that is left is valid and is saved without the last two of its actions. -/
theorem lost_after_deletion :
    (Document.pauses [1, 2, 3, 4]).draw "node" >>= (·.deleteNode "node_3") = .ok islands ∧
      (islands.nodes.map (·.id)).Nodup ∧ islands.validate = [] ∧
      (∀ n ∈ islands.nodes, n.kind ≠ .condition) ∧
      islands.save (.obj []) = .ok (Document.pauses [1]) ∧
      ∃ n ∈ islands.nodes, ¬ n.isEntry ∧ ∀ a, ¬ islands.Contributes (Document.pauses [1]) n a := by
  refine ⟨rfl, by decide, rfl, by decide, save_islands, islands.nodes[2], List.getElem_mem _,
    by decide, ?_⟩
  intro a h
  obtain ⟨p, hp, hna⟩ := h
  obtain ⟨n, hw, hid⟩ := walkFrom_islands p.1 (List.of_mem_zip hp).1
  have hn := (List.of_mem_zip hna).1
  rw [hw] at hn
  have heq : islands.nodes[2].id = n.id := congrArg Node.id (List.mem_singleton.mp hn)
  rw [hid] at heq
  exact absurd heq (by decide)

end ScriptFlow
