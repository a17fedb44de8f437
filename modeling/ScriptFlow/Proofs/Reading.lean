import ScriptFlow.Proofs.Normalize
import ScriptFlow.Proofs.Stations
import ScriptFlow.Fault
import ScriptFlow.Note
import Mathlib.Data.List.Forall2

/-! What reading a script ensures of its parts. The fields that an action or a capability keeps
besides its own have none of the keys that it writes itself, however deep it is nested. -/

namespace ScriptFlow

theorem Fields.not_mem_of_mem_without {fs : Fields} {keys : List String} {f : String × Json}
    (h : f ∈ fs.without keys) : f.1 ∉ keys := by
  simpa using (List.mem_filter.mp h).2

namespace Action

mutual
/-- A property of an action and of the actions in it. -/
def Every (P : Action → Prop) : Action → Prop
  | leaf type fields => P (leaf type fields)
  | branch condition extra thenBody elseBody =>
    P (branch condition extra thenBody elseBody) ∧ ListEvery P thenBody ∧ ListEvery P elseBody
  | loop head extra body => P (loop head extra body) ∧ ListEvery P body

def ListEvery (P : Action → Prop) : List Action → Prop
  | [] => True
  | a :: as => a.Every P ∧ ListEvery P as
end

mutual
/-- An action and the actions in it, in pre-order. -/
def parts : Action → List Action
  | leaf type fields => [leaf type fields]
  | branch condition extra thenBody elseBody =>
    branch condition extra thenBody elseBody :: (listParts thenBody ++ listParts elseBody)
  | loop head extra body => loop head extra body :: listParts body

def listParts : List Action → List Action
  | [] => []
  | a :: as => a.parts ++ listParts as
end

mutual
theorem every_iff {P : Action → Prop} : (a : Action) → (a.Every P ↔ ∀ b ∈ a.parts, P b)
  | leaf .. => by simp [Every, parts]
  | branch _ _ thenBody elseBody => by
    simp only [Every, parts, listEvery_iff thenBody, listEvery_iff elseBody, List.mem_cons,
      List.mem_append, or_imp, forall_and, forall_eq]
  | loop _ _ body => by
    simp only [Every, parts, listEvery_iff body, List.mem_cons, forall_eq_or_imp]

theorem listEvery_iff {P : Action → Prop} :
    (as : List Action) → (ListEvery P as ↔ ∀ b ∈ listParts as, P b)
  | [] => by simp [ListEvery, listParts]
  | a :: as => by
    simp only [ListEvery, listParts, every_iff a, listEvery_iff as, List.mem_append, or_imp,
      forall_and]
end

mutual
/-- What stands at the stations of an action are its parts. -/
theorem action?_stations (loop? : Option Nat) (k : Onward) (n : Nat) : (a : Action) →
    (a.stations loop? k n).map Station.action? = a.parts.map some
  | leaf .. => rfl
  | branch _ _ thenBody elseBody => by
    simp only [stations, parts, List.map_cons, List.map_append, action?_listStations]
  | loop _ _ body => by
    simp only [stations, parts, List.map_cons, action?_listStations]

theorem action?_listStations (loop? : Option Nat) (k : Onward) (n : Nat) : (as : List Action) →
    (listStations loop? k n as).map Station.action? = (listParts as).map some
  | [] => rfl
  | a :: as => by
    simp only [listStations, listParts, List.map_append, action?_stations, action?_listStations]
end

theorem mem_listParts_iff {loop? : Option Nat} {k : Onward} {n : Nat} {as : List Action}
    {a : Action} : a ∈ listParts as ↔ ∃ s ∈ listStations loop? k n as, s.action? = some a := by
  have hm : some a ∈ (listStations loop? k n as).map Station.action? ↔ a ∈ listParts as := by
    rw [action?_listStations]
    simp
  rw [← hm, List.mem_map]

/-- The fields that an action keeps besides its own. -/
def others : Action → Fields
  | leaf _ fields => fields
  | branch _ extra _ _ => extra
  | loop _ extra _ => extra

/-- The keys that an action writes itself. -/
def ownKeys : Action → List String
  | leaf .. => ["type"]
  | branch .. => ["type", "condition", "then", "else"]
  | loop (.forEach ..) .. => ["type", "source", "itemAs", "do"]
  | loop (.whileLoop ..) .. => ["type", "condition", "maxIterations", "do"]

/-- The keys of bodies that an action has not. -/
def strayKeys : Action → List String
  | leaf .. => []
  | branch .. => ["do"]
  | loop .. => ["then", "else"]

/-- The other fields have keys of their own. -/
def KeysApart (a : Action) : Prop := ∀ f ∈ a.others, f.1 ∉ a.ownKeys

def NoStray (a : Action) : Prop := ∀ f ∈ a.others, f.1 ∉ a.strayKeys

/-- A note that is an object has a text as content, if any, and a text or null as digest, if any. -/
def NoteFits (a : Action) : Prop :=
  ∀ note : Fields, a.others.value noteKey = .obj note →
    (note.get? "content" = none ∨ ∃ s, note.get? "content" = some (.str s)) ∧
      (note.get? "configHash" = none ∨ note.get? "configHash" = some .null ∨
        ∃ s, note.get? "configHash" = some (.str s))

/-- A note with content has a text or null as digest, if any. -/
def DigestFits (a : Action) : Prop :=
  ∀ note : Fields, a.others.value noteKey = .obj note → (note.value "content").truthy = true →
    note.value "configHash" = .null ∨ ∃ s, note.value "configHash" = .str s

theorem NoteFits.digestFits {a : Action} (h : a.NoteFits) : a.DigestFits := by
  intro note hv _
  unfold Fields.value
  rcases (h note hv).2 with hd | hd | ⟨s, hd⟩
  · exact Or.inl (by rw [hd]; rfl)
  · exact Or.inl (by rw [hd]; rfl)
  · exact Or.inr ⟨s, by rw [hd]; rfl⟩

theorem every_keysApart_ofTag {tag : String} {rest : Fields} {bodyOf : String → List Action}
    (hrest : ∀ f ∈ rest, f.1 ≠ "type") (hbody : ∀ key, ListEvery KeysApart (bodyOf key)) :
    (ofTag tag rest bodyOf).Every KeysApart := by
  have hwithout : ∀ {keys : List String}, ∀ f ∈ rest.without keys, f.1 ∉ "type" :: keys := by
    intro keys f hf
    exact List.not_mem_cons_of_ne_of_not_mem (hrest f (List.mem_of_mem_filter hf))
      (Fields.not_mem_of_mem_without hf)
  unfold ofTag
  split
  · exact ⟨hwithout, hbody "then", hbody "else"⟩
  split
  · exact ⟨hwithout, hbody "do"⟩
  split
  · exact ⟨hwithout, hbody "do"⟩
  · intro f hf
    simpa [ownKeys] using hrest f hf

theorem every_keysApart_ofFields {fs : Fields} {bodyOf : String → List Action}
    (hbody : ∀ key, ListEvery KeysApart (bodyOf key)) :
    (ofFields fs bodyOf).Every KeysApart := by
  have hrest : ∀ f ∈ fs.without ["type"], f.1 ≠ "type" := by
    intro f hf
    simpa using Fields.not_mem_of_mem_without hf
  have hleaf : ∀ type, (leaf type (fs.without ["type"])).Every KeysApart :=
    fun type f hf => Fields.not_mem_of_mem_without hf
  unfold ofFields
  dsimp only
  split
  · exact every_keysApart_ofTag hrest hbody
  · exact hleaf ""
  · exact hleaf _

theorem every_keysApart_ofScalar (v : Json) : (ofScalar v).Every KeysApart := by
  intro f hf
  simp only [others, List.mem_singleton] at hf
  simp [hf, ownKeys]

/-- A property of values that their parts have with it, and the actions that are read of them have
another one with it. -/
structure Inherited (Q : Json → Prop) (P : Action → Prop) : Prop where
  items : ∀ {vs}, Q (.arr vs) → ∀ v ∈ vs, Q v
  fields : ∀ {fs}, Q (.obj fs) → ∀ f ∈ fs, Q f.2
  scalar : ∀ {v}, Q v → (ofScalar v).Every P
  object : ∀ {fs bodyOf}, Q (.obj fs) → (∀ key, ListEvery P (bodyOf key)) →
    (ofFields fs bodyOf).Every P

namespace Inherited

variable {Q : Json → Prop} {P : Action → Prop}

mutual
theorem every_ofJson (h : Inherited Q P) : (v : Json) → Q v → (ofJson v).Every P
  | .obj fs, hv => h.object hv (h.every_bodyUnder fs (h.fields hv))
  | .arr xs, hv => h.scalar (v := .arr xs) hv
  | .null, hv => h.scalar (v := .null) hv
  | .bool b, hv => h.scalar (v := .bool b) hv
  | .int n, hv => h.scalar (v := .int n) hv
  | .float x, hv => h.scalar (v := .float x) hv
  | .str s, hv => h.scalar (v := .str s) hv

theorem every_bodyOfJson (h : Inherited Q P) : (v : Json) → Q v → ListEvery P (bodyOfJson v)
  | .arr xs, hv => h.every_ofItems xs (h.items hv)
  | .obj fs, hv => by
    unfold bodyOfJson
    split
    · trivial
    · exact ⟨h.object hv (h.every_bodyUnder fs (h.fields hv)), trivial⟩
  | .null, _ => trivial
  | .bool b, hv => by
    unfold bodyOfJson
    split
    · exact ⟨h.scalar hv, trivial⟩
    · trivial
  | .int n, hv => by
    unfold bodyOfJson
    split
    · exact ⟨h.scalar hv, trivial⟩
    · trivial
  | .float x, hv => by
    unfold bodyOfJson
    split
    · exact ⟨h.scalar hv, trivial⟩
    · trivial
  | .str s, hv => by
    unfold bodyOfJson
    split
    · exact ⟨h.scalar hv, trivial⟩
    · trivial

theorem every_ofItems (h : Inherited Q P) : (vs : List Json) → (∀ v ∈ vs, Q v) →
    ListEvery P (ofItems vs)
  | [], _ => trivial
  | v :: vs, hvs => by
    obtain ⟨hv, hvs⟩ := List.forall_mem_cons.mp hvs
    exact ⟨h.every_ofJson v hv, h.every_ofItems vs hvs⟩

theorem every_bodyUnder (h : Inherited Q P) : (fs : List (String × Json)) → (∀ f ∈ fs, Q f.2) →
    (key : String) → ListEvery P (bodyUnder fs key)
  | [], _, _ => trivial
  | (k, v) :: fs, hfs, key => by
    obtain ⟨hv, hfs⟩ := List.forall_mem_cons.mp hfs
    unfold bodyUnder
    split
    · exact h.every_bodyOfJson v hv
    · exact h.every_bodyUnder fs hfs key
end

theorem every_listOfJson (h : Inherited Q P) {v : Json} (hv : Q v) :
    ListEvery P (listOfJson v) := by
  unfold listOfJson
  split
  · exact h.every_ofItems _ (h.items hv)
  · trivial
  · exact ⟨h.every_ofJson v hv, trivial⟩

end Inherited

theorem inherited_keysApart : Inherited (fun _ => True) KeysApart where
  items _ _ _ := trivial
  fields _ _ _ := trivial
  scalar _ := every_keysApart_ofScalar _
  object _ hbody := every_keysApart_ofFields hbody

end Action

namespace Checked

variable {α β : Type}

theorem map_eq_accepted {f : α → β} {x : Checked α} {b : β} :
    x.map f = .accepted b ↔ ∃ a, x = .accepted a ∧ f a = b := by
  cases x <;> simp [map]

theorem apply_eq_accepted {f : Checked (α → β)} {x : Checked α} {b : β} :
    f.apply x = .accepted b ↔ ∃ h a, f = .accepted h ∧ x = .accepted a ∧ h a = b := by
  cases f <;> cases x <;> simp [apply]

theorem under_eq_accepted {s : Step} {x : Checked α} {a : α} :
    x.under s = .accepted a ↔ x = .accepted a := by
  cases x <;> simp [under]

theorem items_eq_accepted {check : Json → Checked α} {i : Nat} {vs : List Json} {as : List α} :
    items check i vs = .accepted as ↔ List.Forall₂ (fun v a => check v = .accepted a) vs as := by
  induction vs generalizing i as with
  | nil => simp [items, eq_comm]
  | cons v vs ih =>
    simp only [items, apply_eq_accepted, map_eq_accepted, under_eq_accepted, ih,
      List.forall₂_cons_left_iff]
    constructor
    · intro h
      obtain ⟨_, as, ⟨a, ha, rfl⟩, has, rfl⟩ := h
      exact ⟨a, as, ha, has, rfl⟩
    · intro h
      obtain ⟨a, as, ha, has, rfl⟩ := h
      exact ⟨_, as, ⟨a, ha, rfl⟩, has, rfl⟩

theorem orFault_eq_ok {record : String} {x : Checked α} {a : α} :
    x.orFault record = .ok a ↔ x = .accepted a := by
  cases x <;> simp [orFault, toExcept]

end Checked

theorem Read.field_eq_accepted {α : Type} {fs : Fields} {key : String} {absent a : α}
    {check : Json → Checked α} : field fs key absent check = .accepted a ↔
      (∃ v, fs.get? key = some v ∧ check v = .accepted a) ∨ fs.get? key = none ∧ absent = a := by
  unfold field
  cases fs.get? key <;> simp [Checked.under_eq_accepted]

/-- A list that was written item by item is read item by item. -/
theorem Read.list_map {α : Type} {check : Json → Checked α} {toJson : α → Json} {as : List α}
    (h : ∀ a ∈ as, check (toJson a) = .accepted a) :
    list check (.arr (as.map toJson)) = .accepted as :=
  Checked.items_eq_accepted.mpr (List.forall₂_map_left_iff.mpr (List.forall₂_same.mpr h))

theorem exists_of_forall₂_right {α β : Type} {R : α → β → Prop} {xs : List α} {ys : List β}
    (h : List.Forall₂ R xs ys) : ∀ y ∈ ys, ∃ x ∈ xs, R x y := by
  induction h with
  | nil => simp
  | @cons x y xs ys hxy _ ih =>
    intro z hz
    rcases List.mem_cons.mp hz with rfl | hz
    · exact ⟨x, List.mem_cons_self, hxy⟩
    · obtain ⟨w, hw, hr⟩ := ih z hz
      exact ⟨w, List.mem_cons_of_mem _ hw, hr⟩

namespace Capability

/-- The other fields of a capability have keys of their own. -/
def KeysApart (c : Capability) : Prop := ∀ f ∈ c.extra, f.1 ∉ knownKeys

theorem ofFieldsWith_eq_accepted {fs : Fields} {actions : List Action} {c : Capability} :
    ofFieldsWith fs actions = .accepted c ↔
      (Read.field fs "name" none readText = .accepted c.name ∧
        Read.field fs "description" none readText = .accepted c.description ∧
        Read.field fs "parameters" none readParameters = .accepted c.parameters) ∧
      c.trigger = fs.get? "trigger" ∧ c.extra = fs.without knownKeys ∧ c.actions = actions := by
  unfold ofFieldsWith
  simp only [Checked.apply_eq_accepted, Checked.map_eq_accepted]
  constructor
  · intro h
    obtain ⟨_, parameters, ⟨_, description, ⟨name, hn, rfl⟩, hd, rfl⟩, hp, rfl⟩ := h
    exact ⟨⟨hn, hd, hp⟩, rfl, rfl, rfl⟩
  · intro h
    obtain ⟨⟨hn, hd, hp⟩, ht, he, ha⟩ := h
    refine ⟨_, _, ⟨_, _, ⟨_, hn, rfl⟩, hd, rfl⟩, hp, ?_⟩
    rw [← ht, ← he, ← ha]

theorem keysApart_of_ofFieldsWith {fs : Fields} {actions : List Action} {c : Capability}
    (h : ofFieldsWith fs actions = .accepted c) : c.KeysApart := by
  obtain ⟨-, -, hextra, -⟩ := ofFieldsWith_eq_accepted.mp h
  intro f hf
  rw [hextra] at hf
  exact Fields.not_mem_of_mem_without hf

/-- A capability is read from the fields of an object. -/
theorem ofJson_eq_accepted {v : Json} {c : Capability} :
    ofJson v = .accepted c ↔ ∃ fs, v = .obj fs ∧ ofFields fs = .accepted c := by
  constructor
  · intro h
    unfold ofJson Read.record at h
    split at h
    · exact ⟨_, rfl, h⟩
    · cases h
  · rintro ⟨fs, rfl, h⟩
    exact h

theorem keysApart_of_ofJson {v : Json} {c : Capability} (h : ofJson v = .accepted c) :
    c.KeysApart ∧ Action.ListEvery Action.KeysApart c.actions := by
  obtain ⟨fs, -, h⟩ := ofJson_eq_accepted.mp h
  obtain ⟨-, -, -, hactions⟩ := ofFieldsWith_eq_accepted.mp h
  rw [hactions]
  exact ⟨keysApart_of_ofFieldsWith h, Action.inherited_keysApart.every_listOfJson trivial⟩

end Capability

namespace Document

/-- The capabilities of a document are those of the list under its key, and there are none if the
key has no list. -/
theorem exists_of_ofJson {v : Json} {d : Document} (h : ofJson v = .accepted d) :
    ∃ (fs : Fields) (vs : List Json), v = .obj fs ∧ d.extra = fs.without ["capabilities"] ∧
      List.Forall₂ (fun v c => Capability.ofJson v = .accepted c) vs d.capabilities ∧
      (fs.get? "capabilities" = some (.arr vs) ∨
        vs = [] ∧ ∀ ws, fs.get? "capabilities" ≠ some (.arr ws)) := by
  unfold ofJson Read.record at h
  split at h
  · next fs =>
    obtain ⟨cs, hcs, rfl⟩ := Checked.map_eq_accepted.mp h
    rcases Read.field_eq_accepted.mp hcs with ⟨w, hw, hread⟩ | ⟨hnone, rfl⟩
    · unfold readCapabilities at hread
      split at hread
      · cases hread
        exact ⟨fs, [], rfl, rfl, .nil, Or.inr ⟨rfl, by simp [hw]⟩⟩
      · unfold Read.list at hread
        split at hread
        · next vs _ => exact ⟨fs, vs, rfl, rfl, Checked.items_eq_accepted.mp hread, Or.inl hw⟩
        · cases hread
    · exact ⟨fs, [], rfl, rfl, .nil, Or.inr ⟨rfl, by simp [hnone]⟩⟩
  · cases h

/-- A document is read from an object, and its capabilities and actions keep their keys apart. -/
theorem of_ofJson {v : Json} {d : Document} (h : ofJson v = .accepted d) :
    (∃ fs, v = .obj fs ∧ d.extra = Fields.without fs ["capabilities"]) ∧
      ∀ c ∈ d.capabilities, c.KeysApart ∧ Action.ListEvery Action.KeysApart c.actions := by
  obtain ⟨fs, vs, hfs, hextra, hcapabilities, -⟩ := exists_of_ofJson h
  refine ⟨⟨fs, hfs, hextra⟩, ?_⟩
  intro c hc
  obtain ⟨w, -, hw⟩ := exists_of_forall₂_right hcapabilities c hc
  exact Capability.keysApart_of_ofJson hw

end Document

end ScriptFlow
