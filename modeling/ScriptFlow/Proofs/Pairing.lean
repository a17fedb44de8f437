import ScriptFlow.Proofs.Contribution
import ScriptFlow.Proofs.Matching
import ScriptFlow.Proofs.RoundTrip

/-! Two flows with the same edges whose nodes correspond. If what is read back of corresponding nodes is
related, so are the documents that are read back, action by action in the same places. -/

namespace ScriptFlow

namespace Visit

mutual
/-- Both actions are made of the visit, and `R` holds between them at each node of it. -/
inductive Pairs (R : Node → Action → Action → Prop) : Visit → Action → Action → Prop
  | plain {n : Node} {t t' : String} {fields fields' : Fields} :
      R n (.leaf t fields) (.leaf t' fields') →
      Pairs R (.plain n) (.leaf t fields) (.leaf t' fields')
  | fork {n : Node} {vs ws : List Visit} {c c' : Option Json} {extra extra' : Fields}
      {ts es ts' es' : List Action} :
      R n (.branch c extra ts es) (.branch c' extra' ts' es') → ListPairs R vs ts ts' →
      ListPairs R ws es es' →
      Pairs R (.fork n vs ws) (.branch c extra ts es) (.branch c' extra' ts' es')
  | loop {n : Node} {vs : List Visit} {head head' : LoopHead} {extra extra' : Fields}
      {bs bs' : List Action} :
      R n (.loop head extra bs) (.loop head' extra' bs') → ListPairs R vs bs bs' →
      Pairs R (.loop n vs) (.loop head extra bs) (.loop head' extra' bs')

inductive ListPairs (R : Node → Action → Action → Prop) :
    List Visit → List Action → List Action → Prop
  | nil : ListPairs R [] [] []
  | cons {v : Visit} {vs : List Visit} {a a' : Action} {as as' : List Action} :
      Pairs R v a a' → ListPairs R vs as as' → ListPairs R (v :: vs) (a :: as) (a' :: as')
end

end Visit

/-- Nodes that a walk does not tell apart, with `R` between what is read back of both. The second one
is read back if the first one is. -/
structure Node.ReadWith (R : Node → Action → Action → Prop) (n m : Node) : Prop where
  id : n.id = m.id
  kind : n.kind = m.kind
  leaf : n.kind = .action → ∀ {a}, n.leaf = .ok a → ∃ a', m.leaf = .ok a' ∧ R n a a'
  branch : n.kind = .condition → ∀ ts es ts' es', R n (n.branch ts es) (m.branch ts' es')
  loop : n.kind = .loop → ∀ bs bs', R n (n.loop bs) (m.loop bs')

namespace Visit

variable {R : Node → Action → Action → Prop}

mutual
theorem exists_toAction {v w : Visit} {a : Action} : v.Matches (Node.ReadWith R) w →
    v.toAction = .ok a → ∃ a', w.toAction = .ok a' ∧ v.Pairs R a a'
  | .plain hkind _ h, ha => by
    obtain ⟨a', ha', hR⟩ := h.leaf hkind ha
    obtain ⟨t, fields, rfl⟩ := Node.eq_leaf_of_leaf ha
    obtain ⟨t', fields', rfl⟩ := Node.eq_leaf_of_leaf ha'
    exact ⟨_, ha', .plain hR⟩
  | .fork hkind _ h hthen helse, ha => by
    obtain ⟨ts, ht, ha⟩ := bind_eq_ok.mp ha
    obtain ⟨es, he, ha⟩ := bind_eq_ok.mp ha
    cases ha
    obtain ⟨ts', ht', hts⟩ := exists_listToActions hthen ht
    obtain ⟨es', he', hes⟩ := exists_listToActions helse he
    exact ⟨_, bind_eq_ok.mpr ⟨ts', ht', bind_eq_ok.mpr ⟨es', he', rfl⟩⟩,
      .fork (h.branch hkind ts es ts' es') hts hes⟩
  | .loop (n := n) (m := m) hkind _ h hbody, ha => by
    obtain ⟨bs, hb, ha⟩ := bind_eq_ok.mp ha
    cases ha
    obtain ⟨bs', hb', hbs⟩ := exists_listToActions hbody hb
    refine ⟨m.loop bs', bind_eq_ok.mpr ⟨bs', hb', rfl⟩, ?_⟩
    have hR := h.loop hkind bs bs'
    obtain ⟨head, extra, h, -⟩ := n.exists_loop_eq bs
    obtain ⟨head', extra', h', -⟩ := m.exists_loop_eq bs'
    rw [h, h'] at hR ⊢
    exact .loop hR hbs

theorem exists_listToActions {vs ws : List Visit} {as : List Action} :
    ListMatches (Node.ReadWith R) vs ws → listToActions vs = .ok as →
      ∃ as', listToActions ws = .ok as' ∧ ListPairs R vs as as'
  | .nil, has => by
    cases has
    exact ⟨[], rfl, .nil⟩
  | .cons h hs, hall => by
    obtain ⟨a, as, ha, has, rfl⟩ := listToActions_cons_eq_ok.mp hall
    obtain ⟨a', ha', hpair⟩ := exists_toAction h ha
    obtain ⟨as', has', hpairs⟩ := exists_listToActions hs has
    exact ⟨_, listToActions_cons_eq_ok.mpr ⟨a', as', ha', has', rfl⟩, .cons hpair hpairs⟩
end

end Visit

/-- The capability is described alike, and `R` holds between the actions at each node of the walk. -/
structure Capability.Pairs (R : Node → Action → Action → Prop) (vs : List Visit)
    (c c' : Capability) : Prop where
  described : c' = { c with actions := c'.actions }
  actions : Visit.ListPairs R vs c.actions c'.actions

/-- The documents have the same other keys and a capability for each entry, and `R` holds between the
actions at each node of the walks. -/
structure Graph.Pairs (R : Node → Action → Action → Prop) (g : Graph) (d d' : Document) : Prop where
  extra : d'.extra = d.extra
  entries : g.entries.length = d.capabilities.length
  capabilities : List.Forall₂ (fun p c' => p.2.Pairs R (g.walkFrom p.1) c')
    (g.entries.zip d.capabilities) d'.capabilities

namespace Graph

variable {R : Node → Action → Action → Prop} {g g' : Graph} {base : Json} {d : Document}

theorem exists_capability (hnodes : List.Forall₂ (Node.ReadWith R) g.nodes g'.nodes)
    (hedges : g'.edges = g.edges) {entry : Node} {c : Capability}
    (h : g.capability entry = .ok c) :
    ∃ c', g'.capability entry = .ok c' ∧ c.Pairs R (g.walkFrom entry) c' := by
  obtain ⟨as, has, h⟩ := bind_eq_ok.mp h
  obtain ⟨hname, htrigger, hextra, rfl⟩ :=
    Capability.ofFieldsWith_eq_accepted.mp (Checked.orFault_eq_ok.mp h)
  have htarget : g.target? = g'.target? := by
    funext id b
    rw [target?, target?, hedges]
  have hmatch := walk_matches hnodes (fun _ _ h => ⟨h.id, h.kind⟩)
    (fun n _ b _ => congrFun (congrFun htarget n.id) b) [] [entry.id]
    ((g.target? entry.id .none).filter (· ≠ ""))
  obtain ⟨as', has', hpairs⟩ := Visit.exists_listToActions hmatch has
  rw [htarget] at has'
  refine ⟨{ c with actions := as' }, bind_eq_ok.mpr ⟨as', has', ?_⟩, rfl, hpairs⟩
  exact Checked.orFault_eq_ok.mpr
    (Capability.ofFieldsWith_eq_accepted.mpr ⟨hname, htrigger, hextra, rfl⟩)

theorem exists_rebuild (hnodes : List.Forall₂ (Node.ReadWith R) g.nodes g'.nodes)
    (hedges : g'.edges = g.edges) (hentries : g'.entries = g.entries)
    (h : g.rebuild base = .ok d) : ∃ d', g'.rebuild base = .ok d' ∧ g.Pairs R d d' := by
  obtain ⟨cs, hcs, h⟩ := bind_eq_ok.mp h
  obtain ⟨extra, hextra, h⟩ := bind_eq_ok.mp h
  cases h
  have hcs := capabilities_eq_ok.mp hcs
  have hlength := hcs.length_eq
  obtain ⟨cs', hcs'⟩ := exists_forall₂ fun p (hp : p ∈ g.entries.zip cs) =>
    exists_capability hnodes hedges (List.forall₂_zip hcs hp)
  have hread : List.Forall₂ (fun entry c => g'.capability entry = .ok c) g'.entries cs' := by
    rw [hentries, ← List.map_fst_zip (Nat.le_of_eq hlength), List.forall₂_map_left_iff]
    exact hcs'.imp fun _ _ hp => hp.1
  refine ⟨⟨cs', extra⟩, ?_, rfl, hlength, hcs'.imp fun _ _ hp => hp.2⟩
  exact bind_eq_ok.mpr ⟨cs', capabilities_eq_ok.mpr hread, bind_eq_ok.mpr ⟨extra, hextra, rfl⟩⟩

end Graph

end ScriptFlow
