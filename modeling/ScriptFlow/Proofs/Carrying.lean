import ScriptFlow.Proofs.Refreshing
import ScriptFlow.Proofs.Tidying

/-! What a flow carries of the data of an action. The type and the supplied keys of an action come
back as they were, and so do its other fields, but for the keys of bodies that it has not, which are
lost, and a note whose content is no text, which comes back with the text of it. -/

namespace ScriptFlow

/-- What is saved in the place of a note with a digest, if its content holds and is no text. -/
def Note.reworded? : Json → Option Fields
  | .obj note =>
    match Fields.value note "content", Fields.value note "configHash" with
    | .str _, _ => none
    | content, .str digest =>
      if content.truthy ∧ digest ≠ "" then
        some [("content", .str content.text), ("configHash", .str digest)]
      else none
    | _, _ => none
  | _ => none

namespace Action

/-- The other fields of an action that come back. -/
def kept (a : Action) : Fields :=
  match Note.reworded? (a.others.value noteKey) with
  | some note => (a.others.without a.strayKeys).set noteKey (.obj note)
  | none => a.others.without a.strayKeys

/-- All of the other fields come back. -/
structure Verbatim (a : Action) : Prop where
  stray : a.NoStray
  note : Note.reworded? (a.others.value noteKey) = none

end Action

/-- The document with what comes back of the other fields of its actions. -/
def Document.carried (d : Document) : Document := d.rewrite fun _ => Action.kept

/-! One configuration. -/

theorem Json.same_str_iff {v : Json} {s : String} : v.same (.str s) = true ↔ v = .str s := by
  constructor
  · intro h
    cases v <;> simp_all [same, sameScalar, whole?]
  · rintro rfl
    exact same_str s

namespace Note

variable {note : Fields}

theorem reworded?_of_text {s : String} (h : note.value "content" = .str s) :
    reworded? (.obj note) = none := by
  simp only [reworded?, h]

theorem reworded?_of_not_truthy (h : (note.value "content").truthy = false) :
    reworded? (.obj note) = none := by
  simp only [reworded?]
  split <;> simp_all

theorem reworded?_of_digest {digest : String} (ht : (note.value "content").truthy = true)
    (hc : ∀ s, note.value "content" ≠ .str s) (hd : note.value "configHash" = .str digest)
    (hne : digest ≠ "") : reworded? (.obj note) =
      some [("content", .str (note.value "content").text), ("configHash", .str digest)] := by
  simp only [reworded?, hd, ht]
  split <;> simp_all

theorem reworded?_of_no_digest (hd : ∀ s, note.value "configHash" = .str s → s = "") :
    reworded? (.obj note) = none := by
  simp only [reworded?]
  split <;> simp_all

/-- What is reworded has a text as content, so it is reworded no more. -/
theorem reworded?_reworded {v : Json} {reworded : Fields} (h : reworded? v = some reworded) :
    reworded? (.obj reworded) = none := by
  unfold reworded? at h
  split at h
  · split at h
    · cases h
    · split at h
      · obtain rfl := Option.some.inj h
        rfl
      · cases h
    · cases h
  · cases h

/-- A note is read of a payload whose content holds, with the text of the content and the digest. -/
theorem of_ofPayload? {n : Note} (h : ofPayload? note = some (.accepted n)) :
    (note.value "content").truthy = true ∧ n.content = (note.value "content").text ∧
      ∀ digest, n.digest = some digest ↔ note.value "configHash" = .str digest := by
  unfold ofPayload? at h
  dsimp only at h
  split at h
  · next ht =>
    obtain ⟨digest, hdigest, rfl⟩ := Checked.map_eq_accepted.mp (Option.some.inj h)
    rw [Checked.under_eq_accepted] at hdigest
    refine ⟨ht, rfl, ?_⟩
    cases hv : note.value "configHash" with
    | null =>
      rw [hv] at hdigest
      cases hdigest
      simp
    | str s =>
      rw [hv] at hdigest
      cases hdigest
      simp
    | _ =>
      rw [hv] at hdigest
      cases hdigest
  · cases h

/-- What a refresh shows was read of a payload. -/
theorem exists_of_refresh? {v : Json} {config shown : Fields}
    (h : refresh? v config = some (.accepted shown)) : ∃ (note : Fields) (n : Note),
      v = .obj note ∧ ofPayload? note = some (.accepted n) ∧ shown = n.shown config := by
  cases v with
  | obj note =>
    obtain ⟨_, hread, hshown⟩ := Option.map_eq_some_iff.mp h
    obtain ⟨n, rfl, rfl⟩ := Checked.map_eq_accepted.mp hshown
    exact ⟨note, n, rfl, hread, rfl⟩
  | _ => cases h

/-- Of a shown note with a digest the content and the digest can be stored. -/
theorem storable?_shown_of_digest {n : Note} {config : Fields} {digest : String}
    (hd : n.digest = some digest) (hc : n.content ≠ "") (hne : digest ≠ "") :
    storable? (.obj (n.shown config)) =
      some [("content", .str n.content), ("configHash", .str digest)] := by
  simp [storable?, content_shown, digest_shown, hd, Json.orElse, Json.truthy, hc, hne]

theorem storable?_shown_of_no_digest {n : Note} {config : Fields}
    (hd : ∀ digest, n.digest = some digest → digest = "") :
    storable? (.obj (n.shown config)) = none := by
  rw [Option.eq_none_iff_forall_ne_some]
  intro payload hp
  obtain ⟨digest, hdigest, -, -, hne⟩ := storable?_shown hp
  exact hne (hd digest hdigest)

end Note

namespace Note

variable {config : Fields}

theorem reworded?_of_ofConfig?_eq_none (h : ofConfig? config = none) :
    reworded? (config.value noteKey) = none := by
  unfold ofConfig? at h
  cases hv : config.value noteKey with
  | obj note =>
    rw [hv, Json.fields?, Option.bind_some, ofPayload?] at h
    refine reworded?_of_not_truthy ?_
    by_contra ht
    simp [ht] at h
  | _ => rfl

/-- What can be stored of a note is held already unless the note is reworded. -/
theorem storable?_shown_eq_reworded {note shown : Fields} {n : Note}
    (hv : config.value noteKey = .obj note) (hn : ofPayload? note = some (.accepted n))
    (hc : n.content ≠ "") : (match storable? (.obj (n.shown shown)) with
      | some payload => if holdsNote config payload then config else config.set noteKey (.obj payload)
      | none => config) = match reworded? (.obj note) with
        | some payload => config.set noteKey (.obj payload)
        | none => config := by
  obtain ⟨ht, hcontent, hdigest⟩ := of_ofPayload? hn
  by_cases hd : ∃ digest, n.digest = some digest ∧ digest ≠ ""
  · obtain ⟨digest, hd, hne⟩ := hd
    have hstored := (hdigest digest).mp hd
    simp only [storable?_shown_of_digest hd hc hne]
    by_cases hs : ∃ s, note.value "content" = .str s
    · -- the text is held already
      obtain ⟨s, hs⟩ := hs
      rw [reworded?_of_text hs, if_pos]
      rw [hs, Json.text] at hcontent
      simp only [holdsNote, hv, hs, hstored, hcontent, Bool.and_eq_true]
      exact ⟨Json.same_str s, Json.same_str digest⟩
    · rw [not_exists] at hs
      rw [reworded?_of_digest ht hs hstored hne, ← hcontent, if_neg]
      simp only [holdsNote, hv, Bool.and_eq_true, not_and]
      intro hsame
      exact absurd (Json.same_str_iff.mp hsame) (hs n.content)
  · have hnone : ∀ digest, n.digest = some digest → digest = "" := by
      intro digest hd'
      by_contra hne
      exact hd ⟨digest, hd', hne⟩
    rw [storable?_shown_of_no_digest hnone,
      reworded?_of_no_digest fun s hs => hnone s ((hdigest s).mpr hs)]

end Note

/-- A note is written anew if it is reworded. -/
theorem storedConfig_eq_reworded {config shown : Fields} (h : shownNote config = .ok shown) :
    storedConfig config = match Note.reworded? (config.value noteKey) with
      | some note => config.set noteKey (.obj note)
      | none => config := by
  simp only [storedConfig, h]
  rcases shownNote_eq_ok.mp h with ⟨hnone, rfl⟩ | ⟨n, hn, rfl⟩
  · rw [Note.reworded?_of_ofConfig?_eq_none hnone]
    rfl
  · obtain ⟨note, hnote, hpayload⟩ := Option.bind_eq_some_iff.mp hn
    have hv : config.value noteKey = .obj note := by
      cases hv : config.value noteKey <;> simp_all [Json.fields?]
    rw [hv]
    exact Note.storable?_shown_eq_reworded hv hpayload (Note.content_ne_empty hn)

namespace Action

variable {a : Action}

/-- The configuration of an action lacks nothing but the keys of missing bodies. -/
theorem KeysApart.config_eq_without (h : a.KeysApart) :
    a.config = ("type", .str a.type) :: (a.headFields ++ a.others.without a.strayKeys) := by
  have hsame (hbody : ∀ key, key ∉ a.ownKeys → (key ∈ bodyKeys ↔ key ∈ a.strayKeys)) :
      a.others.without bodyKeys = a.others.without a.strayKeys := by
    refine List.filter_congr ?_
    intro f hf
    simp [hbody f.1 (h f hf)]
  cases a with
  | leaf t fields =>
    rw [strayKeys, Fields.without_eq_self fun f _ => List.not_mem_nil]
    rfl
  | branch =>
    rw [← hsame fun key hkey => by simp_all [ownKeys, bodyKeys, strayKeys]]
    rfl
  | loop head =>
    cases head <;>
      rw [← hsame fun key hkey => by simp_all [ownKeys, bodyKeys, strayKeys]] <;> rfl

/-- What is saved of an action that can be drawn is what is kept. -/
theorem KeysApart.tidied_eq_kept (h : a.KeysApart) {shown : Fields}
    (hs : shownNote a.config = .ok shown) : a.tidied = a.kept := by
  have htype : "type" ≠ noteKey := by decide
  have hown : ∀ f ∈ a.kept, f.1 ∉ a.ownKeys := by
    intro f hf
    unfold kept at hf
    split at hf
    · rcases Fields.mem_set hf with hf | rfl
      · exact h f (List.mem_of_mem_filter hf)
      · exact a.noteKey_not_mem.1
    · exact h f (List.mem_of_mem_filter hf)
  have hstored : storedConfig a.config = ("type", .str a.type) :: (a.headFields ++ a.kept) := by
    rw [storedConfig_eq_reworded hs, a.value_config_noteKey, h.config_eq_without]
    unfold kept
    split
    · rw [Fields.set, if_neg htype, Fields.set_append a.get?_headFields_noteKey]
    · rfl
  rw [tidied, hstored, Fields.without_cons a.type_mem_ownKeys, Fields.without_append,
    a.headFields_without, List.nil_append, Fields.without_eq_self hown]

/-- The note that comes back is not reworded any more. -/
theorem reworded?_kept (a : Action) : Note.reworded? (a.kept.value noteKey) = none := by
  unfold kept
  split
  · next note hreworded =>
    rw [Fields.value, Fields.get?_set_self]
    exact Note.reworded?_reworded hreworded
  · next hnone =>
    rw [Fields.value, Fields.get?_without, if_neg a.noteKey_not_mem.2]
    exact hnone

theorem not_mem_strayKeys_of_mem_kept {f : String × Json} (hf : f ∈ a.kept) :
    f.1 ∉ a.strayKeys := by
  unfold kept at hf
  split at hf
  · rcases Fields.mem_set hf with hf | rfl
    · exact Fields.not_mem_of_mem_without hf
    · exact a.noteKey_not_mem.2
  · exact Fields.not_mem_of_mem_without hf

theorem kept_eq_others_iff : a.kept = a.others ↔ a.Verbatim := by
  constructor
  · intro h
    refine ⟨fun f hf => not_mem_strayKeys_of_mem_kept (h ▸ hf), ?_⟩
    rw [← h]
    exact a.reworded?_kept
  · intro h
    rw [kept, h.note]
    exact Fields.without_eq_self h.stray

end Action

/-! The whole script. -/

namespace Action

variable {f f' : Action → Fields}

mutual
theorem rewrite_congr (n : Nat) : (a : Action) → a.Every (fun b => f b = f' b) →
    a.rewrite (fun _ => f) n = a.rewrite (fun _ => f') n
  | leaf .., h => congrArg (leaf _) h
  | branch _ _ thenBody elseBody, h => by
    simp only [rewrite, h.1, listRewrite_congr _ thenBody h.2.1, listRewrite_congr _ elseBody h.2.2]
  | loop _ _ body, h => by
    simp only [rewrite, h.1, listRewrite_congr _ body h.2]

theorem listRewrite_congr (n : Nat) : (as : List Action) → ListEvery (fun b => f b = f' b) as →
    listRewrite (fun _ => f) n as = listRewrite (fun _ => f') n as
  | [], _ => rfl
  | a :: as, h => by
    simp only [listRewrite, rewrite_congr n a h.1, listRewrite_congr _ as h.2]
end

mutual
/-- An action stays as it is if it and the actions in it keep their fields. -/
theorem rewrite_eq_self_iff (n : Nat) : (a : Action) →
    (a.rewrite (fun _ => f) n = a ↔ a.Every (fun b => f b = b.others))
  | leaf .. => by simp [rewrite, Every, others]
  | branch _ _ thenBody elseBody => by
    simp only [rewrite, Every, others, branch.injEq, true_and, listRewrite_eq_self_iff _ thenBody,
      listRewrite_eq_self_iff _ elseBody]
  | loop _ _ body => by
    simp only [rewrite, Every, others, loop.injEq, true_and, listRewrite_eq_self_iff _ body]

theorem listRewrite_eq_self_iff (n : Nat) : (as : List Action) →
    (listRewrite (fun _ => f) n as = as ↔ ListEvery (fun b => f b = b.others) as)
  | [] => by simp [listRewrite, ListEvery]
  | a :: as => by
    simp only [listRewrite, ListEvery, List.cons.injEq, rewrite_eq_self_iff n a,
      listRewrite_eq_self_iff _ as]
end

variable {F : Nat → Action → Fields}

mutual
theorem ifsLast_rewrite (n : Nat) : (a : Action) → ((a.rewrite F n).IfsLast ↔ a.IfsLast)
  | leaf .. => Iff.rfl
  | branch _ _ thenBody elseBody =>
    and_congr (listIfsLast_rewrite _ thenBody) (listIfsLast_rewrite _ elseBody)
  | loop _ _ body => listIfsLast_rewrite _ body

theorem listIfsLast_rewrite (n : Nat) : (as : List Action) →
    (ListIfsLast (listRewrite F n as) ↔ ListIfsLast as)
  | [] => Iff.rfl
  | a :: as => by
    have hif : (a.rewrite F n).isIf = a.isIf := by cases a <;> rfl
    have hnil : listRewrite F (n + a.size) as = [] ↔ as = [] := by cases as <;> simp [listRewrite]
    simp only [listRewrite, ListIfsLast, ifsLast_rewrite n a, listIfsLast_rewrite _ as, hif, hnil]
end

end Action

namespace Document

variable {v : Json} {d : Document} {stem : String} {g : Graph} {f f' : Action → Fields}

theorem rewrite_eq (F : Nat → Action → Fields) (d : Document) :
    d.rewrite F = ⟨d.placed.map fun p => p.2.rewrite F p.1, d.extra⟩ := by
  rw [rewrite, placed, map_collect]
  rfl

theorem every_iff_placed {P : Action → Prop} :
    d.Every P ↔ ∀ p ∈ d.placed, Action.ListEvery P p.2.actions := by
  rw [Every, ← d.map_placed, List.forall_mem_map]

theorem rewrite_congr (h : d.Every fun a => f a = f' a) :
    d.rewrite (fun _ => f) = d.rewrite fun _ => f' := by
  rw [rewrite_eq, rewrite_eq, List.map_congr_left]
  intro p hp
  rw [Capability.rewrite, Capability.rewrite,
    Action.listRewrite_congr _ _ (every_iff_placed.mp h p hp)]

theorem rewrite_eq_self_iff :
    d.rewrite (fun _ => f) = d ↔ d.Every fun a => f a = a.others := by
  have hpart : ∀ p ∈ d.placed, p.2.rewrite (fun _ => f) p.1 = p.2 ↔
      Action.ListEvery (fun a => f a = a.others) p.2.actions := by
    intro p _
    rw [← Action.listRewrite_eq_self_iff (p.1 + 1)]
    exact ⟨congrArg Capability.actions, fun he => by rw [Capability.rewrite, he]⟩
  calc d.rewrite (fun _ => f) = d
      ↔ (d.placed.map fun p => p.2.rewrite (fun _ => f) p.1) = d.placed.map Prod.snd := by
        rw [rewrite_eq, map_placed]
        exact ⟨congrArg capabilities, fun he => by rw [he]⟩
    _ ↔ ∀ p ∈ d.placed, p.2.rewrite (fun _ => f) p.1 = p.2 := List.map_inj_left
    _ ↔ d.Every fun a => f a = a.others := by
        rw [every_iff_placed]
        exact forall₂_congr hpart

theorem IfsLast.rewrite (h : d.IfsLast) (F : Nat → Action → Fields) : (d.rewrite F).IfsLast := by
  rw [rewrite_eq]
  intro c hc
  obtain ⟨p, hp, rfl⟩ := List.mem_map.mp hc
  exact (Action.listIfsLast_rewrite _ _).mpr (h p.2 (d.map_placed ▸ List.mem_map_of_mem hp))

/-- What is saved of a drawn document, its order apart, is what is kept of its actions. -/
theorem tidy_eq_carried (h : d.draw stem = .ok g) (hkeys : d.Every Action.KeysApart) :
    d.tidy = d.carried := by
  refine rewrite_congr (every_iff_stations.mpr ?_)
  intro s hs a ha
  obtain ⟨n, -, spot, hn⟩ := exists_action_node h hs ha
  obtain ⟨shown, hshown, -⟩ := bind_eq_ok.mp hn
  exact (hkeys.of_mem_stations s hs a ha).tidied_eq_kept hshown

/-- The flow of a document in which every `if` comes last has what is kept of its actions. -/
theorem rebuild_of_ifsLast (hv : ofJson v = .accepted d) (h : d.draw stem = .ok g)
    (hlast : d.IfsLast) :
    g.rebuildWith d.extra = .ok d.carried ∧ g.rebuild v = .ok d.carried := by
  obtain ⟨⟨fs, rfl, hextra⟩, hparts⟩ := of_ofJson hv
  have hkeys : d.Every Action.KeysApart := fun c hc => (hparts c hc).2
  have hcapabilities := keysApart_tidy fun c hc => (hparts c hc).1
  obtain ⟨gt, hgt, halike⟩ := exists_draw_tidy h hkeys
  have hrestored := every_restored_tidy h hkeys
  have hnormal : d.tidy.normalize = d.carried :=
    (normalize_eq_self (hlast.rewrite _)).trans (tidy_eq_carried h hkeys)
  have hread : g.capabilities = .ok d.carried.capabilities := by
    rw [halike.capabilities_eq,
      capabilities_of_restored hgt hrestored.of_mem_stations hcapabilities, hnormal]
  refine ⟨?_, ?_⟩
  · rw [Graph.rebuildWith, hread]
    rfl
  · rw [Graph.rebuild, hread, documentExtra, ← hextra]
    rfl

/-- A leaf with a note whose content is a number, and an `if` with a key of a body that it has
not. -/
def burdened (note : Json) (extra : Fields) : Document :=
  ⟨[⟨"main", none, none, none, [],
    [.leaf "notify" [("text", .str "hi"), (noteKey, note)],
     .branch (some (.str "ok")) extra [.leaf "click" []] []]⟩], []⟩

/-- The content of the note comes back as text, and the key is lost. -/
theorem rebuild_burdened :
    let note (content : Json) : Json :=
      .obj [("content", content), ("configHash", .str "0123456789ab")]
    let d := burdened (note (.int 5)) [("do", .str "x"), ("hint", .null)]
    ofJson d.toJson = .accepted d ∧ d.IfsLast ∧ ∃ g, d.draw defaultStem = .ok g ∧
      g.rebuild d.toJson = .ok (burdened (note (.str "5")) [("hint", .null)]) ∧
      (note (.str "5")).same (note (.int 5)) = false := by
  intro note d
  have hv : ofJson d.toJson = .accepted d := rfl
  have hlast : d.IfsLast := by
    simp [d, burdened, IfsLast, Action.ListIfsLast, Action.IfsLast, Action.isIf]
  obtain ⟨g, hg⟩ : ∃ g, d.draw defaultStem = .ok g := ⟨_, rfl⟩
  exact ⟨hv, hlast, g, hg, (rebuild_of_ifsLast hv hg hlast).2, rfl⟩

/-- A document in which every `if` comes last is read back from its flow with the same actions in the
same places, each with its type and the keys that were supplied, and with the other fields that are
kept. All of them are exactly if no action has a key of a body that it lacks or a note that is
reworded. -/
theorem rebuild_eq_carried (hv : ofJson v = .accepted d) (h : d.draw stem = .ok g)
    (hlast : d.IfsLast) : g.rebuildWith d.extra = .ok d.carried ∧ g.rebuild v = .ok d.carried ∧
      (d.carried = d ↔ d.Every Action.Verbatim) := by
  obtain ⟨hwith, hrebuild⟩ := rebuild_of_ifsLast hv h hlast
  refine ⟨hwith, hrebuild, ?_⟩
  rw [carried, rewrite_eq_self_iff]
  simp only [Action.kept_eq_others_iff]

theorem rebuild_eq_carried_burdened :
    let note : Json := .obj [("content", .str "Says hi."), ("configHash", .null)]
    let d := burdened note [("hint", .null)]
    d.Every Action.Verbatim ∧ ∃ g, d.draw defaultStem = .ok g ∧ g.rebuild d.toJson = .ok d := by
  intro note d
  have hv : ofJson d.toJson = .accepted d := rfl
  have hlast : d.IfsLast := by
    simp [d, burdened, IfsLast, Action.ListIfsLast, Action.IfsLast, Action.isIf]
  obtain ⟨g, hg⟩ : ∃ g, d.draw defaultStem = .ok g := ⟨_, rfl⟩
  obtain ⟨-, hrebuild, hsame⟩ := rebuild_eq_carried hv hg hlast
  have hcarried : d.carried = d := rfl
  exact ⟨hsame.mp hcarried, g, hg, hcarried ▸ hrebuild⟩

end Document

end ScriptFlow
