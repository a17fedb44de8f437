import ScriptFlow.Json.Comparison
import ScriptFlow.Proofs.Tags

/-! Which values are written as they were read. An action is, up to the order of its fields, if its
tag is a text and the keys of its bodies all have lists of such actions; a document is if all of its
lists are there, with actions like that, and nothing is null that is read as something else. Other
values are brought into this form by reading and writing them once. -/

namespace ScriptFlow

/-- Equal up to the order of fields: objects have the same keys and the values under them are
alike. -/
inductive Json.Alike : Json → Json → Prop
  | refl (v : Json) : Alike v v
  | arr {vs ws : List Json} (length : vs.length = ws.length)
      (items : ∀ (i : Nat) (v w : Json), vs[i]? = some v → ws[i]? = some w → Alike v w) :
      Alike (.arr vs) (.arr ws)
  | obj {fs gs : Fields} (keys : ∀ key, fs.has key = gs.has key)
      (values : ∀ key v w, fs.get? key = some v → gs.get? key = some w → Alike v w) :
      Alike (.obj fs) (.obj gs)

theorem Json.Alike.of_forall₂ {vs ws : List Json} (h : List.Forall₂ Alike vs ws) :
    Alike (.arr vs) (.arr ws) := by
  obtain ⟨hlength, hitems⟩ := List.forall₂_iff_get.mp h
  refine .arr hlength ?_
  intro i v w hv hw
  obtain ⟨hvs, rfl⟩ := List.getElem?_eq_some_iff.mp hv
  obtain ⟨hws, rfl⟩ := List.getElem?_eq_some_iff.mp hw
  exact hitems i hvs hws

/-- A relation that only holds between values that are alike in texts, items and fields. -/
structure Discerning (R : Json → Json → Prop) : Prop where
  text : ∀ {s v}, R (.str s) v → v = .str s
  items : ∀ {vs v}, R (.arr vs) v → ∃ ws, v = .arr ws ∧ List.Forall₂ R vs ws
  fields : ∀ {fs v}, R (.obj fs) v → ∃ gs, v = .obj gs ∧
    ∀ key w, Fields.get? fs key = some w → ∃ u, Fields.get? gs key = some u ∧ R w u

theorem Json.discerning_alike : Discerning Json.Alike where
  text h := by
    cases h
    rfl
  items h := by
    cases h with
    | refl => exact ⟨_, rfl, List.forall₂_same.mpr fun v _ => .refl v⟩
    | arr hlength hitems =>
      refine ⟨_, rfl, List.forall₂_iff_get.mpr ⟨hlength, ?_⟩⟩
      intro i hv hw
      exact hitems i _ _ (List.getElem?_eq_getElem hv) (List.getElem?_eq_getElem hw)
  fields h := by
    cases h with
    | refl => exact ⟨_, rfl, fun key w hw => ⟨w, hw, .refl w⟩⟩
    | @obj fs gs hkeys hvalues =>
      refine ⟨_, rfl, ?_⟩
      intro key w hw
      have hgs : (gs.get? key).isSome := by
        have hfs : gs.has key = true := by rw [← hkeys key, Fields.has, hw]; rfl
        exact hfs
      obtain ⟨u, hu⟩ := Option.isSome_iff_exists.mp hgs
      exact ⟨u, hu, hvalues key w u hw hu⟩

theorem Json.forall₂_of_sameItems {vs ws : List Json} (h : sameItems vs ws = true) :
    List.Forall₂ (fun v w => v.same w = true) vs ws := by
  induction vs generalizing ws with
  | nil =>
    cases ws with
    | nil => exact .nil
    | cons => cases h
  | cons v vs ih =>
    cases ws with
    | nil => cases h
    | cons w ws =>
      obtain ⟨hv, hvs⟩ := Bool.and_eq_true_iff.mp h
      exact .cons hv (ih hvs)

theorem Json.get?_of_sameFields {fs gs : Fields} (h : sameFields fs gs = true) :
    ∀ key w, fs.get? key = some w → ∃ u, gs.get? key = some u ∧ w.same u = true := by
  induction fs with
  | nil => simp [Fields.get?_nil]
  | cons f fs ih =>
    obtain ⟨hf, hfs⟩ := Bool.and_eq_true_iff.mp h
    intro key w hw
    rw [Fields.get?_cons] at hw
    split at hw
    · next hkey =>
      cases hw
      split at hf
      · next u hu => exact ⟨u, hkey ▸ hu, hf⟩
      · cases hf
    · exact ih hfs key w hw

/-- Equality as data is discerning, although it takes true for one. -/
theorem Json.discerning_same : Discerning fun v w => v.same w = true where
  text := by
    intro s v h
    cases v <;> simp_all [same, sameScalar, whole?]
  items := by
    intro vs v h
    cases v with
    | arr ws => exact ⟨ws, rfl, forall₂_of_sameItems (by simpa [same] using h)⟩
    | _ => simp [same, sameScalar, whole?] at h
  fields := by
    intro fs v h
    cases v with
    | obj gs =>
      have hfields : sameFields fs gs = true := by
        rw [same, Bool.and_eq_true_iff] at h
        exact h.2
      exact ⟨gs, rfl, get?_of_sameFields hfields⟩
    | _ => simp [same, sameScalar, whole?] at h

theorem Fields.sizeOf_lt_of_get? {fs : Fields} {key : String} {v : Json}
    (h : fs.get? key = some v) : sizeOf v < sizeOf fs := by
  induction fs with
  | nil => cases h
  | cons f fs ih =>
    obtain ⟨k, w⟩ := f
    rw [get?_cons] at h
    split at h
    · obtain rfl := Option.some.inj h
      simp
      omega
    · have hlt := ih h
      simp
      omega

/-- Induction from the items of the lists in an object to the object. -/
@[elab_as_elim]
theorem Json.induction_items {P : Json → Prop} (v : Json)
    (step : ∀ v, (∀ fs key vs, v = .obj fs → Fields.get? fs key = some (.arr vs) →
      ∀ w ∈ vs, P w) → P v) : P v := by
  refine step v ?_
  intro fs key vs hv hvs w hw
  have hitem := List.sizeOf_lt_of_mem hw
  have hlist := Fields.sizeOf_lt_of_get? hvs
  have hlt : sizeOf w < sizeOf v := by
    rw [hv]
    simp only [arr.sizeOf_spec, obj.sizeOf_spec] at hlist ⊢
    omega
  exact induction_items w step
termination_by sizeOf v

namespace Action

/-- The keys under which an action with a tag has others. -/
def nestedKeys (tag : String) : List String :=
  if tag = "if" then ["then", "else"]
  else if tag = "forEach" ∨ tag = "while" then ["do"]
  else []

/-- The tag is a text, and the keys for nested actions that go with it all have lists of canonical
actions. -/
inductive Canonical : Json → Prop
  | obj {fs : Fields} {tag : String} (typed : fs.get? "type" = some (.str tag))
      (listed : ∀ key ∈ nestedKeys tag, ∃ vs, fs.get? key = some (.arr vs))
      (nested : ∀ key ∈ nestedKeys tag, ∀ vs, fs.get? key = some (.arr vs) →
        ∀ v ∈ vs, Canonical v) : Canonical (.obj fs)

theorem type_not_mem_nestedKeys (tag : String) : "type" ∉ nestedKeys tag := by
  unfold nestedKeys
  split
  · decide
  split
  · decide
  · exact List.not_mem_nil

/-- What is written of an action that was read: its tag, its nested actions, and every other field
as it was. -/
theorem get?_toJson_ofTag (tag : String) (rest : Fields) (bodyOf : String → List Action) :
    ∃ gs, (ofTag tag rest bodyOf).toJson = .obj gs ∧ ∀ key, Fields.get? gs key =
      if key = "type" then some (.str tag)
      else if key ∈ nestedKeys tag then some (.arr (listToJson (bodyOf key)))
      else rest.get? key := by
  unfold ofTag
  split
  · next htag =>
    refine ⟨_, rfl, ?_⟩
    intro key
    simp only [Fields.get?_cons, Fields.get?_append, Fields.get?_optionalField,
      Fields.get?_without, Fields.get?_nil, nestedKeys, htag]
    grind
  split
  · next htag =>
    refine ⟨_, rfl, ?_⟩
    intro key
    simp only [Fields.get?_cons, Fields.get?_append, LoopHead.fields, Fields.get?_optionalField,
      Fields.get?_without, Fields.get?_nil, nestedKeys, htag, LoopHead.type]
    grind
  split
  · next htag =>
    refine ⟨_, rfl, ?_⟩
    intro key
    simp only [Fields.get?_cons, Fields.get?_append, LoopHead.fields, Fields.get?_optionalField,
      Fields.get?_without, Fields.get?_nil, nestedKeys, htag, LoopHead.type]
    grind
  · next hif hforEach hwhile =>
    refine ⟨_, rfl, ?_⟩
    intro key
    simp [Fields.get?_cons, nestedKeys, hif, hforEach, hwhile]

theorem get?_toJson_ofJson {fs : Fields} {tag : String} (h : fs.get? "type" = some (.str tag)) :
    ∃ gs, (ofJson (.obj fs)).toJson = .obj gs ∧ ∀ key, Fields.get? gs key =
      if key ∈ nestedKeys tag then some (.arr (listToJson (bodyUnder fs key)))
      else fs.get? key := by
  obtain ⟨gs, hgs, hget⟩ := get?_toJson_ofTag tag (fs.without ["type"]) (bodyUnder fs)
  refine ⟨gs, ?_, ?_⟩
  · rw [← hgs, ofJson, ofFields, Fields.value, h]
    rfl
  · intro key
    rw [hget key, Fields.get?_without]
    by_cases hkey : key = "type"
    · simp [hkey, type_not_mem_nestedKeys, h]
    · simp [hkey]

theorem listToJson_ofItems (vs : List Json) :
    listToJson (ofItems vs) = vs.map fun v => (ofJson v).toJson := by
  induction vs with
  | nil => rfl
  | cons v vs ih => rw [ofItems, listToJson, ih, List.map_cons]

/-- The actions under a key that has a list. -/
theorem listToJson_bodyUnder {fs : Fields} {key : String} {vs : List Json}
    (h : fs.get? key = some (.arr vs)) :
    listToJson (bodyUnder fs key) = vs.map fun v => (ofJson v).toJson := by
  rw [bodyUnder_eq, h, ← listToJson_ofItems]
  rfl

/-- A canonical value is written as it was read. -/
theorem Canonical.alike {v : Json} (h : Canonical v) : (ofJson v).toJson.Alike v := by
  induction h with
  | @obj fs tag typed listed _ ih =>
    obtain ⟨gs, hgs, hget⟩ := get?_toJson_ofJson typed
    rw [hgs]
    refine .obj ?_ ?_
    · intro key
      rw [Fields.has, Fields.has, hget key]
      split
      · next hkey =>
        obtain ⟨vs, hvs⟩ := listed key hkey
        rw [hvs]
        rfl
      · rfl
    · intro key v w hv hw
      rw [hget key] at hv
      split at hv
      · next hkey =>
        obtain ⟨vs, hvs⟩ := listed key hkey
        obtain rfl : Json.arr vs = w := Option.some.inj (hvs.symm.trans hw)
        obtain rfl := Option.some.inj hv
        rw [listToJson_bodyUnder hvs]
        refine .of_forall₂ (List.forall₂_map_left_iff.mpr (List.forall₂_same.mpr ?_))
        exact ih key hkey vs hvs
      · obtain rfl : v = w := Option.some.inj (hv.symm.trans hw)
        exact .refl v

/-- A value is canonical if what is written of it is equal in texts, items and fields. -/
theorem canonical_of_discerning {R : Json → Json → Prop} (hR : Discerning R) (v : Json)
    (h : R (ofJson v).toJson v) : Canonical v := by
  induction v using Json.induction_items with
  | step v ih =>
    have hobj := h
    rw [toJson_eq] at hobj
    obtain ⟨fs, rfl, hfields⟩ := hR.fields hobj
    obtain ⟨w, typed, hw⟩ := hfields "type" _ (by rw [Fields.get?_cons, if_pos rfl])
    obtain rfl := hR.text hw
    obtain ⟨gs, hgs, hget⟩ := get?_toJson_ofJson typed
    rw [hgs] at h
    obtain ⟨fs', hfs', hnested⟩ := hR.fields h
    obtain rfl := Json.obj.inj hfs'
    have hlisted : ∀ key ∈ nestedKeys (ofJson (.obj fs)).type, ∃ vs,
        Fields.get? fs key = some (.arr vs) ∧ ∀ v ∈ vs, R (ofJson v).toJson v := by
      intro key hkey
      obtain ⟨u, hu, hRu⟩ := hnested key _ (by rw [hget key, if_pos hkey])
      obtain ⟨vs, rfl, hvs⟩ := hR.items hRu
      refine ⟨vs, hu, ?_⟩
      rw [listToJson_bodyUnder hu, List.forall₂_map_left_iff] at hvs
      exact List.forall₂_same.mp hvs
    refine .obj typed (fun key hkey => (hlisted key hkey).imp fun _ => And.left) ?_
    intro key hkey vs hvs v hv
    obtain ⟨ws, hws, hitems⟩ := hlisted key hkey
    obtain rfl := Json.arr.inj (Option.some.inj (hvs.symm.trans hws))
    exact ih fs key vs rfl hvs v hv (hitems v hv)

end Action

namespace Capability

/-- The value that a capability has under a key for one that was supplied: null stands for the empty
text or list. -/
def settle (key : String) : Json → Json
  | .null =>
    if key = "name" ∨ key = "description" then .str ""
    else if key = "parameters" then .arr []
    else .null
  | v => v

/-- An object with a list of canonical actions in which nothing is null that stands for another
value. -/
def Canonical (v : Json) : Prop :=
  ∃ fs : Fields, v = .obj fs ∧
    (∃ vs, fs.get? "actions" = some (.arr vs) ∧ ∀ v ∈ vs, Action.Canonical v) ∧
    ∀ key ∈ ["name", "description", "parameters"], fs.get? key ≠ some .null

theorem settle_eq_self {fs : Fields} {key : String} {v : Json} (hv : fs.get? key = some v)
    (h : ∀ key ∈ ["name", "description", "parameters"], fs.get? key ≠ some .null) :
    settle key v = v := by
  cases v with
  | null =>
    have hkey : key ∉ ["name", "description", "parameters"] := fun hm => h key hm hv
    simp only [List.mem_cons, List.not_mem_nil, or_false, not_or] at hkey
    simp [settle, hkey]
  | _ => rfl

theorem map_str_of_readText {fs : Fields} {key : String} {t : Option String}
    (hkey : key = "name" ∨ key = "description")
    (h : Read.field fs key none readText = .accepted t) :
    t.map .str = (fs.get? key).map (settle key) := by
  rcases Read.field_eq_accepted.mp h with ⟨v, hv, hread⟩ | ⟨hnone, rfl⟩
  · rw [hv]
    cases v with
    | null =>
      obtain rfl := Checked.accepted.inj hread
      simp [settle, hkey]
    | str s =>
      obtain rfl := Checked.accepted.inj hread
      rfl
    | _ => cases hread
  · rw [hnone]
    rfl

theorem map_arr_of_readParameters {fs : Fields} {t : Option (List Json)}
    (h : Read.field fs "parameters" none readParameters = .accepted t) :
    t.map .arr = (fs.get? "parameters").map (settle "parameters") := by
  rcases Read.field_eq_accepted.mp h with ⟨v, hv, hread⟩ | ⟨hnone, rfl⟩
  · rw [hv]
    cases v with
    | null =>
      obtain rfl := Checked.accepted.inj hread
      rfl
    | arr vs =>
      obtain ⟨ws, hws, rfl⟩ := Checked.map_eq_accepted.mp hread
      have hsame : vs = ws := List.forall₂_eq_eq_eq ▸
        (Checked.items_eq_accepted.mp hws).imp fun _ _ he => Checked.accepted.inj he
      rw [hsame]
      rfl
    | _ => cases hread
  · rw [hnone]
    rfl

variable {fs : Fields} {c : Capability}

/-- A capability has what was supplied under every key but that of the actions. -/
theorem get?_metadata (h : ofFields fs = .accepted c) {key : String} (hkey : key ≠ "actions") :
    c.metadata.get? key = (fs.get? key).map (settle key) := by
  obtain ⟨⟨hname, hdescription, hparameters⟩, htrigger, hextra, -⟩ := ofFieldsWith_eq_accepted.mp h
  have hsame : key ∉ ["name", "description", "parameters"] →
      (fs.get? key).map (settle key) = fs.get? key := by
    intro hother
    simp only [List.mem_cons, List.not_mem_nil, or_false, not_or] at hother
    rcases fs.get? key with _ | v
    · rfl
    · cases v <;> simp [settle, hother]
  simp only [metadata, Fields.get?_append, Fields.get?_optionalField, hextra, Fields.get?_without,
    map_str_of_readText (Or.inl rfl) hname, map_str_of_readText (Or.inr rfl) hdescription,
    map_arr_of_readParameters hparameters, htrigger]
  by_cases hknown : key ∈ knownKeys
  · simp only [knownKeys, List.mem_cons, List.not_mem_nil, or_false, hkey] at hknown
    rcases hknown with rfl | rfl | rfl | rfl
    · simp [knownKeys]
    · simp [knownKeys]
    · simp [knownKeys]
    · simp [knownKeys, hsame]
  · have hother : key ∉ ["name", "description", "parameters"] := by
      simp only [knownKeys, List.mem_cons, List.not_mem_nil, or_false, not_or] at hknown ⊢
      tauto
    rw [hsame hother]
    simp only [knownKeys, List.mem_cons, List.not_mem_nil, or_false, not_or] at hknown
    simp [knownKeys, hknown]

theorem get?_toJson (h : ofFields fs = .accepted c) :
    ∃ gs : Fields, c.toJson = .obj gs ∧
      gs.get? "actions" = some (.arr (Action.listToJson c.actions)) ∧
      ∀ key, key ≠ "actions" → gs.get? key = (fs.get? key).map (settle key) := by
  refine ⟨_, rfl, ?_, ?_⟩
  · rw [Fields.get?_append, (keysApart_of_ofFieldsWith h).get?_metadata_actions]
    simp [Fields.get?_cons]
  · intro key hkey
    rw [Fields.get?_append, get?_metadata h hkey]
    simp [Fields.get?_cons, Fields.get?_nil, hkey]

theorem actions_of_ofFields {vs : List Json} (h : ofFields fs = .accepted c)
    (hvs : fs.get? "actions" = some (.arr vs)) :
    Action.listToJson c.actions = vs.map fun v => (Action.ofJson v).toJson := by
  obtain ⟨-, -, -, hactions⟩ := ofFieldsWith_eq_accepted.mp h
  rw [hactions, Fields.value, hvs]
  exact Action.listToJson_ofItems vs

theorem Canonical.alike {v : Json} (h : Canonical v) (hc : ofJson v = .accepted c) :
    c.toJson.Alike v := by
  obtain ⟨fs, rfl, ⟨vs, hvs, hcanonical⟩, hsettled⟩ := h
  obtain ⟨gs, hgs, hactions, hother⟩ := get?_toJson hc
  rw [actions_of_ofFields hc hvs] at hactions
  rw [hgs]
  refine .obj ?_ ?_
  · intro key
    by_cases hkey : key = "actions"
    · rw [Fields.has, Fields.has, hkey, hactions, hvs]
      rfl
    · rw [Fields.has, Fields.has, hother key hkey, Option.isSome_map]
  · intro key v w hv hw
    by_cases hkey : key = "actions"
    · subst hkey
      obtain rfl := Option.some.inj (hactions.symm.trans hv)
      obtain rfl := Option.some.inj (hvs.symm.trans hw)
      refine .of_forall₂ (List.forall₂_map_left_iff.mpr (List.forall₂_same.mpr ?_))
      exact fun v hv => (hcanonical v hv).alike
    · rw [hother key hkey, hw, Option.map_some, settle_eq_self hw hsettled] at hv
      obtain rfl := Option.some.inj hv
      exact .refl _

theorem canonical_of_discerning {R : Json → Json → Prop} (hR : Discerning R) {v : Json}
    (hc : ofJson v = .accepted c) (h : R c.toJson v) : Canonical v := by
  obtain ⟨fs, rfl, hc⟩ := ofJson_eq_accepted.mp hc
  obtain ⟨gs, hgs, hactions, hother⟩ := get?_toJson hc
  rw [hgs] at h
  obtain ⟨fs', hfs', hfields⟩ := hR.fields h
  obtain rfl := Json.obj.inj hfs'
  refine ⟨fs, rfl, ?_, ?_⟩
  · obtain ⟨u, hu, hRu⟩ := hfields "actions" _ hactions
    obtain ⟨vs, rfl, hvs⟩ := hR.items hRu
    rw [actions_of_ofFields hc hu, List.forall₂_map_left_iff] at hvs
    exact ⟨vs, hu, fun v hv => Action.canonical_of_discerning hR v (List.forall₂_same.mp hvs v hv)⟩
  · -- what null stands for would be written in its place
    intro key hkey hnull
    simp only [List.mem_cons, List.not_mem_nil, or_false] at hkey
    have hwritten : gs.get? key = some (settle key .null) := by
      rw [hother key (by rcases hkey with rfl | rfl | rfl <;> decide), hnull]
      rfl
    obtain ⟨u, hu, hRu⟩ := hfields key _ hwritten
    obtain rfl := Option.some.inj (hnull.symm.trans hu)
    rcases hkey with rfl | rfl | rfl
    · cases hR.text hRu
    · cases hR.text hRu
    · obtain ⟨ws, hws, -⟩ := hR.items hRu
      cases hws

end Capability

namespace Document

/-- An object with a list of canonical capabilities. -/
def Canonical (v : Json) : Prop :=
  ∃ (fs : Fields) (vs : List Json), v = .obj fs ∧ fs.get? "capabilities" = some (.arr vs) ∧
    ∀ c ∈ vs, Capability.Canonical c

/-- A document has its capabilities and every other field as it was. -/
theorem get?_toJson {d : Document} {fs : Fields} (hextra : d.extra = fs.without ["capabilities"]) :
    ∃ gs : Fields, d.toJson = .obj gs ∧
      ∀ key, gs.get? key = if key = "capabilities"
        then some (.arr (d.capabilities.map Capability.toJson)) else fs.get? key := by
  refine ⟨_, rfl, ?_⟩
  intro key
  rw [Fields.get?_append, hextra, Fields.get?_without]
  by_cases hkey : key = "capabilities"
  · simp [Fields.get?_cons, hkey]
  · simp [Fields.get?_cons, Fields.get?_nil, hkey]

variable {v : Json} {d : Document}

theorem Canonical.alike (h : Canonical v) (hd : ofJson v = .accepted d) : d.toJson.Alike v := by
  obtain ⟨fs, vs, rfl, hvs, hcanonical⟩ := h
  obtain ⟨fs', vs', hfs', hextra, hread, hlist⟩ := exists_of_ofJson hd
  obtain rfl := Json.obj.inj hfs'
  obtain ⟨gs, hgs, hget⟩ := get?_toJson hextra
  obtain rfl : vs' = vs := by
    rcases hlist with h' | ⟨-, hnone⟩
    · exact Json.arr.inj (Option.some.inj (h'.symm.trans hvs))
    · exact absurd hvs (hnone vs)
  rw [hgs]
  refine .obj ?_ ?_
  · intro key
    rw [Fields.has, Fields.has, hget key]
    split
    · next hkey =>
      rw [hkey, hvs]
      rfl
    · rfl
  · intro key v w hv hw
    rw [hget key] at hv
    split at hv
    · next hkey =>
      subst hkey
      obtain rfl := Option.some.inj hv
      obtain rfl := Option.some.inj (hvs.symm.trans hw)
      have hboth := (List.forall₂_and_left _ _).mpr ⟨hcanonical, hread⟩
      have halike := (hboth.imp fun v c h => h.1.alike h.2).flip
      exact .of_forall₂ (List.forall₂_map_left_iff.mpr halike)
    · obtain rfl : v = w := Option.some.inj (hv.symm.trans hw)
      exact .refl v

theorem canonical_of_discerning {R : Json → Json → Prop} (hR : Discerning R)
    (hd : ofJson v = .accepted d) (h : R d.toJson v) : Canonical v := by
  obtain ⟨fs, vs, rfl, hextra, hread, hlist⟩ := exists_of_ofJson hd
  obtain ⟨gs, hgs, hget⟩ := get?_toJson hextra
  rw [hgs] at h
  obtain ⟨fs', hfs', hfields⟩ := hR.fields h
  obtain rfl := Json.obj.inj hfs'
  obtain ⟨u, hu, hRu⟩ := hfields "capabilities" _ (by rw [hget, if_pos rfl])
  obtain ⟨ws, rfl, hws⟩ := hR.items hRu
  obtain hvs | ⟨-, hnone⟩ := hlist
  · obtain rfl := Json.arr.inj (Option.some.inj (hvs.symm.trans hu))
    rw [List.forall₂_map_left_iff] at hws
    refine ⟨fs, vs, rfl, hvs, ?_⟩
    intro w hw
    obtain ⟨c, -, hcanonical⟩ := exists_of_forall₂_right (hws.mp
      (fun c w hR' hc => Capability.canonical_of_discerning hR hc hR') hread.flip) w hw
    exact hcanonical
  · exact absurd hu (hnone ws)

/-- Actions and documents are read back from what is written of them, and a value is written as it
was read if it is canonical. If it is not, then the value that is written is not even equal to it
as data. -/
theorem codec_exact :
    (∀ v, Action.ofJson (Action.ofJson v).toJson = Action.ofJson v ∧
      ((Action.ofJson v).toJson.Alike v ↔ Action.Canonical v) ∧
      ((Action.ofJson v).toJson.same v = true → Action.Canonical v)) ∧
    ∀ v d, ofJson v = .accepted d →
      ofJson d.toJson = .accepted d ∧ (d.toJson.Alike v ↔ Canonical v) ∧
        (d.toJson.same v = true → Canonical v) := by
  constructor
  · intro v
    exact ⟨Action.ofJson_toJson_ofJson v,
      ⟨Action.canonical_of_discerning Json.discerning_alike v, Action.Canonical.alike⟩,
      Action.canonical_of_discerning Json.discerning_same v⟩
  · intro v d hd
    exact ⟨ofJson_toJson_of_ofJson hd,
      ⟨canonical_of_discerning Json.discerning_alike hd, fun h => h.alike hd⟩,
      canonical_of_discerning Json.discerning_same hd⟩

theorem codec_exact_sample :
    ofJson sample.toJson = .accepted sample ∧ Canonical sample.toJson := by
  have hread : ofJson sample.toJson = .accepted sample := rfl
  obtain ⟨htwice, hiff, -⟩ := codec_exact.2 _ _ hread
  exact ⟨htwice, hiff.mp (.refl _)⟩

end Document

/-- A body that is no list is written as one, and a body that was left out as an empty one. -/
example :
    let click : Json := .obj [("type", .str "click")]
    (Action.ofJson (.obj [("then", click), ("type", .str "if")])).toJson =
      .obj [("type", .str "if"), ("then", .arr [click]), ("else", .arr [])] := rfl

end ScriptFlow
