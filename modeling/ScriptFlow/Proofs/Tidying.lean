import ScriptFlow.Proofs.Congruence
import ScriptFlow.Proofs.Rewriting
import ScriptFlow.Proofs.RoundTrip

/-! Saving twice. What is saved of an action lacks the keys of bodies that it has not and holds its
note as it is stored, and an action of this kind is read back as it was drawn. So a document that was
drawn and read back once, with the actions after each `if` in its branches, is read back the same
from then on. -/

namespace ScriptFlow

namespace Fields

theorem mem_set {fs : Fields} {k : String} {v : Json} {f : String × Json} (h : f ∈ set fs k v) :
    f ∈ fs ∨ f = (k, v) := by
  induction fs with
  | nil => exact Or.inr (List.mem_singleton.mp h)
  | cons e fs ih =>
    unfold set at h
    split at h
    · exact (List.mem_cons.mp h).symm.imp_left (List.mem_cons_of_mem _)
    · rcases List.mem_cons.mp h with rfl | h
      · exact Or.inl List.mem_cons_self
      · exact (ih h).imp_left (List.mem_cons_of_mem _)

end Fields

/-- A note that was stored is held when it is shown again. -/
theorem noteHeld_of_stored {config : Fields} {content digest : String} (hc : content ≠ "")
    (hvalue : config.value noteKey =
      .obj [("content", .str content), ("configHash", .str digest)]) : NoteHeld config := by
  have hcontent : Fields.value [("content", .str content), ("configHash", .str digest)] "content" =
      .str content := rfl
  have hdigest : Fields.value [("content", .str content), ("configHash", .str digest)]
      "configHash" = .str digest := rfl
  have htruthy : (Json.str content).truthy = true := by simpa [Json.truthy] using hc
  have hread : Note.ofConfig? config = some (.accepted ⟨content, some digest⟩) := by
    unfold Note.ofConfig?
    simp only [hvalue, Json.fields?, Option.bind_some, Note.ofPayload?, hcontent, hdigest, htruthy,
      if_true, Json.text, Note.readDigest, Read.text, Checked.map, Checked.under]
  refine ⟨[("note", .obj ((⟨content, some digest⟩ : Note).shown config))], ?_, ?_⟩
  · rw [shownNote, hread]
    rfl
  · intro payload hp
    obtain ⟨t, ht, rfl, -⟩ := Note.storable?_shown hp
    cases ht
    simp only [holdsNote, hvalue, hcontent, hdigest, Bool.and_eq_true]
    exact ⟨Json.same_str content, Json.same_str digest⟩

/-- A note that can be stored is shown of a note. -/
theorem exists_note_of_storable {config shown payload : Fields} (h : shownNote config = .ok shown)
    (hp : Note.storable? (shown.value "note") = some payload) :
    ∃ content digest, content ≠ "" ∧
      payload = [("content", .str content), ("configHash", .str digest)] := by
  rcases shownNote_eq_ok.mp h with ⟨-, rfl⟩ | ⟨n, -, rfl⟩
  · cases hp
  · obtain ⟨t, -, hpayload, hc, -⟩ := Note.storable?_shown hp
    exact ⟨n.content, t, hc, hpayload⟩

/-- The stored configuration holds its note. -/
theorem noteHeld_storedConfig {config shown : Fields} (h : shownNote config = .ok shown) :
    NoteHeld (storedConfig config) := by
  simp only [storedConfig, h]
  cases hp : Note.storable? (shown.value "note") with
  | none => exact ⟨shown, h, fun payload hp' => by rw [hp] at hp'; cases hp'⟩
  | some payload =>
    by_cases hheld : holdsNote config payload = true
    · simp only [hheld, if_true]
      refine ⟨shown, h, fun payload' hp' => ?_⟩
      rw [hp] at hp'
      cases hp'
      exact hheld
    · simp only [hheld, if_false, Bool.false_eq_true]
      obtain ⟨content, digest, hc, rfl⟩ := exists_note_of_storable h hp
      have hvalue : (config.set noteKey (.obj [("content", .str content),
          ("configHash", .str digest)])).value noteKey =
            .obj [("content", .str content), ("configHash", .str digest)] := by
        rw [Fields.value, Fields.get?_set_self, Option.getD_some]
      exact noteHeld_of_stored hc hvalue

namespace Action

/-- The other fields that are saved of an action. -/
def tidied (a : Action) : Fields := (storedConfig a.config).without a.ownKeys

variable {a : Action}

/-- The configuration of an action with its keys apart has none of the keys of bodies. -/
theorem KeysApart.exists_config_eq (h : a.KeysApart) : ∃ rest,
    a.config = ("type", .str a.type) :: (a.headFields ++ rest) ∧
      ∀ f ∈ rest, f.1 ∉ a.ownKeys ∧ f.1 ∉ a.strayKeys := by
  cases a with
  | leaf t fields => exact ⟨fields, rfl, fun f hf => ⟨h f hf, List.not_mem_nil⟩⟩
  | branch condition extra thenBody elseBody =>
    refine ⟨extra.without bodyKeys, rfl, fun f hf => ⟨h f (List.mem_of_mem_filter hf), ?_⟩⟩
    intro hm
    exact Fields.not_mem_of_mem_without hf (by simp_all [strayKeys, bodyKeys])
  | loop head extra body =>
    refine ⟨extra.without bodyKeys, rfl, fun f hf => ⟨h f (List.mem_of_mem_filter hf), ?_⟩⟩
    intro hm
    refine Fields.not_mem_of_mem_without hf ?_
    simp only [strayKeys, bodyKeys, List.mem_cons, List.not_mem_nil, or_false] at hm ⊢
    exact hm.imp_right Or.inl

theorem noteKey_not_mem (a : Action) : noteKey ∉ a.ownKeys ∧ noteKey ∉ a.strayKeys := by
  cases a with
  | leaf => simp [ownKeys, strayKeys, noteKey]
  | branch => simp [ownKeys, strayKeys, noteKey]
  | loop head => cases head <;> simp [ownKeys, strayKeys, noteKey]

/-- What is saved of an action is its type, its head and the fields that are kept of the others. -/
theorem KeysApart.storedConfig_eq (h : a.KeysApart) :
    storedConfig a.config = ("type", .str a.type) :: (a.headFields ++ a.tidied) ∧
      ∀ f ∈ a.tidied, f.1 ∉ a.ownKeys ∧ f.1 ∉ a.strayKeys := by
  have htype : "type" ≠ noteKey := by decide
  obtain ⟨rest, hconfig, hrest⟩ := h.exists_config_eq
  have hstored : ∃ rest, storedConfig a.config = ("type", .str a.type) :: (a.headFields ++ rest) ∧
      ∀ f ∈ rest, f.1 ∉ a.ownKeys ∧ f.1 ∉ a.strayKeys := by
    unfold storedConfig
    split
    · split
      · next payload _ =>
        split
        · exact ⟨rest, hconfig, hrest⟩
        · refine ⟨rest.set noteKey (.obj payload), ?_, fun f hf => ?_⟩
          · rw [hconfig, Fields.set, if_neg htype, Fields.set_append a.get?_headFields_noteKey]
          · rcases Fields.mem_set hf with hf | rfl
            · exact hrest f hf
            · exact a.noteKey_not_mem
      · exact ⟨rest, hconfig, hrest⟩
    · exact ⟨rest, hconfig, hrest⟩
  obtain ⟨rest, hconfig, hrest⟩ := hstored
  have htidied : a.tidied = rest := by
    rw [tidied, hconfig, Fields.without_cons a.type_mem_ownKeys, Fields.without_append,
      a.headFields_without, List.nil_append, Fields.without_eq_self fun f hf => (hrest f hf).1]
  rw [htidied]
  exact ⟨hconfig, hrest⟩

/-- The action with the fields that are saved of it, and of the actions in it. -/
def tidy (n : Nat) (a : Action) : Action := a.rewrite (fun _ => tidied) n

theorem others_tidy (n : Nat) (a : Action) : (a.tidy n).others = a.tidied := by
  cases a <;> rfl

theorem ownKeys_tidy (n : Nat) (a : Action) : (a.tidy n).ownKeys = a.ownKeys := by
  cases a with
  | leaf => rfl
  | branch => rfl
  | loop head => cases head <;> rfl

theorem strayKeys_tidy (n : Nat) (a : Action) : (a.tidy n).strayKeys = a.strayKeys := by
  cases a <;> rfl

theorem headFields_tidy (n : Nat) (a : Action) : (a.tidy n).headFields = a.headFields := by
  cases a <;> rfl

theorem type_tidy (n : Nat) (a : Action) : (a.tidy n).type = a.type := by
  cases a <;> rfl

theorem kind_tidy (n : Nat) (a : Action) : (a.tidy n).kind = a.kind := by
  cases a <;> rfl

/-- A tidied action is drawn with the configuration that is saved of the action. -/
theorem KeysApart.config_tidy (h : a.KeysApart) (n : Nat) :
    (a.tidy n).config = storedConfig a.config := by
  obtain ⟨hconfig, hrest⟩ := h.storedConfig_eq
  have hkeys : (a.tidy n).KeysApart := by
    rw [KeysApart, others_tidy, ownKeys_tidy]
    exact fun f hf => (hrest f hf).1
  have hstray : (a.tidy n).NoStray := by
    rw [NoStray, others_tidy, strayKeys_tidy]
    exact fun f hf => (hrest f hf).2
  rw [hkeys.config_eq hstray, headFields_tidy, others_tidy, type_tidy, hconfig]

/-- A tidied action is read back as it is. -/
theorem KeysApart.restored_tidy (h : a.KeysApart) {shown : Fields}
    (hs : shownNote a.config = .ok shown) (n : Nat) : (a.tidy n).Restored := by
  obtain ⟨-, hrest⟩ := h.storedConfig_eq
  refine ⟨?_, ?_, ?_⟩
  · rw [KeysApart, others_tidy, ownKeys_tidy]
    exact fun f hf => (hrest f hf).1
  · rw [NoStray, others_tidy, strayKeys_tidy]
    exact fun f hf => (hrest f hf).2
  · rw [h.config_tidy n]
    exact noteHeld_storedConfig hs

/-! A property that bodies do not matter to is kept by normal forms. -/

theorem listEvery_append {P : Action → Prop} {as bs : List Action} :
    ListEvery P (as ++ bs) ↔ ListEvery P as ∧ ListEvery P bs := by
  induction as with
  | nil => simp [ListEvery]
  | cons a as ih => simp [ListEvery, ih, and_assoc]

theorem listEvery_normalize {P : Action → Prop}
    (hbranch : ∀ condition extra ts es ts' es', P (branch condition extra ts es) →
      P (branch condition extra ts' es'))
    (hloop : ∀ head extra body body', P (loop head extra body) → P (loop head extra body'))
    {as : List Action} (h : ListEvery P as) : ListEvery P (normalize as) := by
  fun_induction normalize as with
  | case1 => trivial
  | case2 type fields as ih => exact ⟨h.1, ih h.2⟩
  | case3 condition extra thenBody elseBody as iht ihe =>
    obtain ⟨⟨hp, ht, he⟩, has⟩ := h
    refine ⟨⟨hbranch _ _ _ _ _ _ hp, ?_, ?_⟩, trivial⟩
    · split
      · trivial
      · exact iht (listEvery_append.mpr ⟨ht, has⟩)
    · split
      · trivial
      · exact ihe (listEvery_append.mpr ⟨he, has⟩)
  | case4 head extra body as ihb ih =>
    obtain ⟨⟨hp, hb⟩, has⟩ := h
    exact ⟨⟨hloop _ _ _ _ hp, ihb hb⟩, ih has⟩

end Action

namespace Document

/-- What is left of a document once it was drawn and saved, its order apart. -/
def tidy (d : Document) : Document := d.rewrite fun _ => Action.tidied

variable {d : Document} {g : Graph} {stem : String}

theorem every_restored_normalize (h : d.Every Action.Restored) :
    d.normalize.Every Action.Restored := by
  intro c' hc'
  obtain ⟨c, hc, rfl⟩ := List.mem_map.mp hc'
  refine Action.listEvery_normalize ?_ ?_ (h c hc)
  · exact fun _ _ _ _ _ _ hp => ⟨hp.keys, hp.stray, hp.note⟩
  · intro head extra body body' hp
    cases head <;> exact ⟨hp.keys, hp.stray, hp.note⟩

theorem normalize_normalize (d : Document) : d.normalize.normalize = d.normalize := by
  refine normalize_eq_self fun c hc => ?_
  obtain ⟨c, -, rfl⟩ := List.mem_map.mp hc
  exact Action.listIfsLast_normalize c.actions

/-- The items of a document whose actions keep their keys apart. -/
theorem keysApart_of_item (hkeys : d.Every Action.KeysApart) {k : Nat} {a : Action} {spot : Spot}
    (hi : Item.action k a spot ∈ d.outline.items) : a.KeysApart := by
  obtain ⟨s, hs, he⟩ := exists_station_of_item hi
  exact hkeys.of_mem_stations s hs a (congrArg Prod.snd he)

/-- Every action of the tidied document is the tidied one of an item that was drawn. -/
theorem every_restored_tidy (h : d.draw stem = .ok g) (hkeys : d.Every Action.KeysApart) :
    d.tidy.Every Action.Restored := by
  refine every_iff_stations.mpr fun s hs a ha => ?_
  have hm : s.numbered ∈ d.tidy.stations.map Station.numbered := List.mem_map_of_mem hs
  rw [← d.tidy.numbered_items, tidy, items_rewrite, List.map_map, List.mem_map] at hm
  obtain ⟨i, hi, he⟩ := hm
  obtain ⟨n, -, hn⟩ := exists_of_forall₂_right (nodes_of_draw h).flip i hi
  cases i with
  | capability k c => simp [Item.rewrite, Item.numbered, Station.numbered, ha] at he
  | action k b spot =>
    obtain ⟨shown, hshown, -⟩ := bind_eq_ok.mp hn
    have hab : b.tidy k = a := Option.some.inj ((congrArg Prod.snd he).trans ha)
    rw [← hab]
    exact (keysApart_of_item hkeys hi).restored_tidy hshown k

theorem keysApart_tidy (h : ∀ c ∈ d.capabilities, c.KeysApart) :
    ∀ c ∈ d.tidy.capabilities, c.KeysApart := by
  intro c hc
  obtain ⟨p, hp, hc⟩ := mem_collect.mp hc
  obtain rfl := List.mem_singleton.mp hc
  exact h p.2 (d.map_placed ▸ List.mem_map_of_mem hp)

theorem keysApart_normalize (h : ∀ c ∈ d.capabilities, c.KeysApart) :
    ∀ c ∈ d.normalize.capabilities, c.KeysApart := by
  intro c' hc'
  obtain ⟨c, hc, rfl⟩ := List.mem_map.mp hc'
  exact h c hc

/-- An item that is drawn is drawn tidied as a node that is read back alike. -/
theorem exists_node_tidy (hkeys : d.Every Action.KeysApart) {i : Item} (hi : i ∈ d.outline.items)
    {n : Node} (hn : i.node stem = .ok n) :
    ∃ m, (i.rewrite fun _ => Action.tidied).node stem = .ok m ∧ n.SavedAlike m := by
  cases i with
  | capability k c =>
    cases hn
    exact ⟨_, rfl, rfl, rfl, rfl, fun _ => rfl, fun _ => rfl⟩
  | action k a spot =>
    have ha := keysApart_of_item hkeys hi
    obtain ⟨shown, hshown, -⟩ := bind_eq_ok.mp hn
    have hheld := (ha.restored_tidy hshown k).note
    obtain ⟨m, hm⟩ : ∃ m, (Item.action k (a.tidy k) spot).node stem = .ok m := by
      obtain ⟨shown', hshown', -⟩ := hheld
      exact exists_node_of_shown hshown'
    obtain ⟨hid, hkind, htype, -⟩ := drawn_of_node hn
    obtain ⟨hid', hkind', htype', -⟩ := drawn_of_node hm
    refine ⟨m, hm, hid.trans hid'.symm, ?_, ?_, fun _ => ?_, fun hentry => ?_⟩
    · rw [hkind, hkind', Action.kind_tidy]
    · rw [htype, htype', Action.type_tidy]
    · rw [savedConfig_eq_of_node hn, savedConfig_of_node hm hheld, ha.config_tidy]
    · rw [hkind] at hentry
      cases a <;> cases hentry

/-- A document and its tidied one are drawn as flows that are read back alike. -/
theorem exists_draw_tidy (h : d.draw stem = .ok g) (hkeys : d.Every Action.KeysApart) :
    ∃ g', d.tidy.draw stem = .ok g' ∧ g.SavedAlike g' := by
  obtain ⟨nodes, hnodes, halike⟩ := exists_forall₂_of_forall₂ (nodes_of_draw h)
    fun i hi n hn => exists_node_tidy hkeys hi hn
  refine ⟨_, draw_rewrite hnodes, halike, fun id b => ?_⟩
  rw [Graph.target?, Graph.target?, edges_of_draw h]

end Document

/-- Saving twice saves what saving once does: what is read back of a drawn document is drawn and read
back as it is. -/
theorem rebuild_rebuild {v : Json} {d : Document} {stem : String} {g : Graph}
    (hv : Document.ofJson v = .accepted d) (h : d.draw stem = .ok g) (stem' : String) :
    ∃ r, g.rebuildWith d.extra = .ok r ∧ g.rebuild v = .ok r ∧
      ∃ g', r.draw stem' = .ok g' ∧ g'.rebuildWith r.extra = .ok r ∧
        g'.rebuild r.toJson = .ok r := by
  obtain ⟨⟨fs, rfl, hextra⟩, hparts⟩ := Document.of_ofJson hv
  have hkeys : d.Every Action.KeysApart := fun c hc => (hparts c hc).2
  have hcapabilities := Document.keysApart_tidy fun c hc => (hparts c hc).1
  obtain ⟨gt, hgt, halike⟩ := Document.exists_draw_tidy h hkeys
  have hrestored := Document.every_restored_tidy h hkeys
  have hread : g.capabilities = .ok d.tidy.normalize.capabilities :=
    halike.capabilities_eq.trans
      (capabilities_of_restored hgt hrestored.of_mem_stations hcapabilities)
  -- the normal form of the tidied document is read back as it is
  have hrestored' := Document.every_restored_normalize hrestored
  obtain ⟨g', hg'⟩ := exists_draw_of_shown stem' fun s hs a ha => by
    obtain ⟨shown, hshown, -⟩ := (hrestored'.of_mem_stations s hs a ha).note
    exact ⟨shown, hshown⟩
  have hread' : g'.capabilities = .ok d.tidy.normalize.capabilities := by
    have hread' := capabilities_of_restored hg' hrestored'.of_mem_stations
      (Document.keysApart_normalize hcapabilities)
    rwa [Document.normalize_normalize] at hread'
  refine ⟨d.tidy.normalize, ?_, ?_, g', hg', ?_, ?_⟩
  · rw [Graph.rebuildWith, hread]
    rfl
  · rw [Graph.rebuild, hread, documentExtra, ← hextra]
    rfl
  · rw [Graph.rebuildWith, hread']
    rfl
  · have hwithout : Fields.without d.extra ["capabilities"] = d.extra := by
      rw [hextra]
      exact Fields.without_eq_self fun f hf => Fields.not_mem_of_mem_without hf
    rw [Graph.rebuild, hread', Document.toJson, documentExtra, Fields.without_append]
    change Except.ok (⟨_, Fields.without d.extra _ ++ []⟩ : Document) = _
    rw [hwithout, List.append_nil]
    rfl

/-- An `if` with a key of a body that it has not and a note whose content is a number, with an empty
branch and an action after it. -/
def Document.untidy : Document :=
  ⟨[⟨"main", none, none, none, [],
    [.branch (some (.str "ok")) [("do", .str "x"),
        (noteKey, .obj [("content", .int 5), ("configHash", .str "0123456789ab")])]
      [.leaf "click" []] [],
     .leaf "wait" []]⟩], []⟩

theorem rebuild_rebuild_untidy :
    Document.ofJson Document.untidy.toJson = .accepted Document.untidy ∧
      ∃ g, Document.untidy.draw defaultStem = .ok g ∧
        ∃ r, g.rebuildWith Document.untidy.extra = .ok r ∧
          g.rebuild Document.untidy.toJson = .ok r ∧
          ∃ g', r.draw defaultStem = .ok g' ∧ g'.rebuildWith r.extra = .ok r ∧
            g'.rebuild r.toJson = .ok r := by
  have hv : Document.ofJson Document.untidy.toJson = .accepted Document.untidy := rfl
  obtain ⟨g, hg⟩ : ∃ g, Document.untidy.draw defaultStem = .ok g := ⟨_, rfl⟩
  exact ⟨hv, g, hg, rebuild_rebuild hv hg defaultStem⟩

end ScriptFlow
