import ScriptFlow.Json.Reader
import ScriptFlow.Proofs.Numerals
import ScriptFlow.Proofs.Scanning

/-! A text is the text of one value. Strings are read back from inside quotes by undoing the escapes.
A word, a string, a list and an object start with different characters; a word ends where none of its
characters comes, and the other texts end with a mark of their own. So no text of a value is the
start of that of another, whatever comes after it. All characters of a text are ASCII. -/

namespace ScriptFlow.Json

/-! Strings are read back. -/

theorem readUnit?_hexDigits {u : Nat} (hu : u < 0x10000) (rest : List Char) :
    readUnit? (hexDigits 4 u ++ rest) = some (u, rest) := by
  have hdigit : ∀ d < 16, hexValue? (hexDigit d) = some d := by decide
  have hmod : ∀ n, hexValue? (hexDigit (n % 16)) = some (n % 16) :=
    fun n => hdigit _ (Nat.mod_lt n (by decide))
  have hvalue : ((u / 16 / 16 / 16 % 16 * 16 + u / 16 / 16 % 16) * 16 + u / 16 % 16) * 16 + u % 16 =
      u := by
    omega
  simp only [hexDigits, List.nil_append, List.cons_append, readUnit?, hmod, bind, Option.bind,
    hvalue]

theorem readEscapedChar?_unit {c : Char} (h : c.toNat < 0x10000) (rest : List Char) :
    readEscapedChar? (hexDigits 4 c.toNat ++ rest) = some (c, rest) := by
  have hvalid : c.toNat < 0xD800 ∨ 0xDFFF < c.toNat ∧ c.toNat < 0x110000 := c.valid
  have hlone : ¬ (0xD800 ≤ c.toNat ∧ c.toNat < 0xDC00) := by omega
  simp only [readEscapedChar?, readUnit?_hexDigits h, if_neg hlone, Char.ofNat_toNat]

theorem readEscapedChar?_units {u v : Nat} (hu : 0xD800 ≤ u ∧ u < 0xDC00)
    (hv : 0xDC00 ≤ v ∧ v < 0xE000) (rest : List Char) :
    readEscapedChar? (hexDigits 4 u ++ (escapeUnit v ++ rest)) =
      some (Char.ofNat (0x10000 + (u - 0xD800) * 0x400 + (v - 0xDC00)), rest) := by
  have hu' : u < 0x10000 := by omega
  have hv' : v < 0x10000 := by omega
  simp only [readEscapedChar?, readUnit?_hexDigits hu', if_pos hu, escapeUnit, List.cons_append,
    readUnit?_hexDigits hv', if_pos hv]

theorem readEscapedChar?_pair {c : Char} {u v : Nat} (h : 0x10000 ≤ c.toNat)
    (hu : u = 0xD800 + (c.toNat - 0x10000) / 0x400)
    (hv : v = 0xDC00 + (c.toNat - 0x10000) % 0x400) (rest : List Char) :
    readEscapedChar? (hexDigits 4 u ++ (escapeUnit v ++ rest)) = some (c, rest) := by
  have hvalid : c.toNat < 0xD800 ∨ 0xDFFF < c.toNat ∧ c.toNat < 0x110000 := c.valid
  have hvalue : 0x10000 + (u - 0xD800) * 0x400 + (v - 0xDC00) = c.toNat := by omega
  rw [readEscapedChar?_units (by omega) (by omega), hvalue, Char.ofNat_toNat]

/-- What is written of a character is read as that character. -/
theorem readString_escape (fuel : Nat) (c : Char) (rest acc : List Char) :
    readString (fuel + 1) (escape c ++ rest) acc = readString fuel rest (c :: acc) := by
  have hescaped := escaped_escape c
  generalize escape c = code at hescaped
  cases hescaped with
  | plain _ _ hquote hbackslash =>
    rw [List.singleton_append, readString.eq_def]
    split
    · next h => cases h
    · next hfuel =>
      cases hfuel
      split
      · next h => cases h
      · next h => exact absurd (List.cons.inj h).1 hquote
      · next h => exact absurd (List.cons.inj h).1 hbackslash
      · next h => exact absurd (List.cons.inj h).1 hbackslash
      · next h =>
        cases h
        rfl
  | letter h =>
    simp only [escapeLetters, List.mem_cons, Prod.mk.injEq, List.not_mem_nil, or_false] at h
    rcases h with h | h | h | h | h | h | h <;> obtain ⟨rfl, rfl⟩ := h <;> rfl
  | unit _ h =>
    simp only [escapeUnit, List.cons_append, readString, readEscapedChar?_unit h]
  | pair h =>
    generalize hu : 0xD800 + (c.toNat - 0x10000) / 0x400 = u
    generalize hv : 0xDC00 + (c.toNat - 0x10000) % 0x400 = v
    rw [List.append_assoc, escapeUnit, List.cons_append, List.cons_append, readString,
      readEscapedChar?_pair h hu.symm hv.symm]

theorem readString_escaped {fuel : Nat} {cs : List Char} (hfuel : cs.length < fuel)
    (acc rest : List Char) : readString fuel (cs.flatMap escape ++ '"' :: rest) acc =
      some (String.ofList (acc.reverse ++ cs), rest) := by
  induction cs generalizing acc fuel with
  | nil =>
    obtain ⟨fuel, rfl⟩ := Nat.exists_eq_succ_of_ne_zero (Nat.ne_of_gt hfuel)
    rw [List.flatMap_nil, List.nil_append, readString, List.append_nil]
  | cons c cs ih =>
    obtain ⟨fuel, rfl⟩ := Nat.exists_eq_succ_of_ne_zero (Nat.ne_of_gt (Nat.zero_lt_of_lt hfuel))
    rw [List.flatMap_cons, List.append_assoc, readString_escape, ih (Nat.lt_of_succ_lt_succ hfuel),
      List.reverse_cons, List.append_assoc, List.singleton_append]

/-- A string in quotes is told by any text that starts with it. -/
theorem quote_append_inj {s t : String} {rest rest' : List Char}
    (h : quote s ++ rest = quote t ++ rest') : s = t ∧ rest = rest' := by
  have hread : ∀ (s : String) (fuel : Nat) (rest : List Char), s.toList.length < fuel →
      readString fuel (s.toList.flatMap escape ++ '"' :: rest) [] = some (s, rest) := by
    intro s fuel rest hfuel
    rw [readString_escaped hfuel, List.reverse_nil, List.nil_append, String.ofList_toList]
  have hquote : s.toList.flatMap escape ++ '"' :: rest =
      t.toList.flatMap escape ++ '"' :: rest' := by
    simpa [quote, quoteChars] using h
  have hs := hread s (s.toList.length + t.toList.length + 1) rest (by omega)
  rw [hquote, hread t _ rest' (by omega)] at hs
  cases hs
  exact ⟨rfl, rfl⟩

/-! Where a text starts and where it ends. -/

/-- The character that the text of a value starts with. -/
def Starts : Json → Char → Prop
  | .str _, c => c = '"'
  | .arr _, c => c = '['
  | .obj _, c => c = '\x7b'
  | _, c => InWord c

/-- No word goes on here. -/
def Ends (cs : List Char) : Prop := ∀ c ∈ cs.head?, ¬ InWord c

instance (c : Char) : Decidable (InWord c) := inferInstanceAs (Decidable (_ ∨ _))

variable {v w : Json} {rest rest' : List Char}

theorem Plain.starts_iff (h : v.Plain) (c : Char) : Starts v c ↔ InWord c := by
  cases v with
  | str => exact h.elim
  | arr => exact h.elim
  | obj => exact h.elim
  | _ => rfl

theorem Plain.chars_ne_nil (h : v.Plain) : v.chars ≠ [] := by
  intro hnil
  obtain ⟨kind, hkind⟩ := h.spelled
  have hempty := hkind.kind_eq
  rw [hnil] at hempty
  cases hkind with
  | letters hs =>
    rw [hs.chars_eq] at hnil
    cases hs <;> exact absurd hnil (by decide)
  | integer => cases hempty
  | decimal => cases hempty

theorem exists_starts (v : Json) : ∃ c cs, v.chars = c :: cs ∧ Starts v c := by
  have hplain : ∀ {v : Json}, v.Plain → ∃ c cs, v.chars = c :: cs ∧ Starts v c := by
    intro v hv
    obtain ⟨c, cs, hc⟩ := List.exists_cons_of_ne_nil hv.chars_ne_nil
    exact ⟨c, cs, hc, (hv.starts_iff c).mpr (hv.inWord c (hc ▸ List.mem_cons_self))⟩
  match v with
  | .null | .bool _ | .int _ | .float _ => exact hplain trivial
  | .str s => exact ⟨_, _, rfl, rfl⟩
  | .arr [] | .arr (_ :: _) => exact ⟨_, _, by rw [chars], rfl⟩
  | .obj [] | .obj (_ :: _) => exact ⟨_, _, by rw [chars], rfl⟩

theorem Plain.append_inj (hv : v.Plain) (hw : w.Plain) (h : v.chars ++ rest = w.chars ++ rest')
    (hrest : Ends rest) (hrest' : Ends rest') : v = w ∧ rest = rest' := by
  -- if one text went on where the other ends, a word would go on there
  have hcut : ∀ {w : Json} {cs cs' rest rest' : List Char}, w.Plain → w.chars = cs ++ cs' →
      rest = cs' ++ rest' → Ends rest → cs' = [] := by
    intro w cs cs' rest rest' hw hcs hcut hends
    cases cs' with
    | nil => rfl
    | cons c cs' =>
      exact absurd (hw.inWord c (hcs ▸ by simp)) (hends c (by rw [hcut]; rfl))
  rcases List.append_eq_append_iff.mp h with ⟨cs, hcs, hcut'⟩ | ⟨cs, hcs, hcut'⟩
  · obtain rfl := hcut hw hcs hcut' hrest
    exact ⟨hv.eq_of_chars hw (by rw [hcs, List.append_nil]), hcut'⟩
  · obtain rfl := hcut hv hcs hcut' hrest'
    exact ⟨hv.eq_of_chars hw (by rw [hcs, List.append_nil]), hcut'.symm⟩

theorem exists_starts_of_append (h : v.chars ++ rest = w.chars ++ rest') :
    ∃ c, Starts v c ∧ Starts w c := by
  obtain ⟨c, cs, hv, hc⟩ := exists_starts v
  obtain ⟨d, ds, hw, hd⟩ := exists_starts w
  rw [hv, hw] at h
  obtain rfl : c = d := (List.cons.inj h).1
  exact ⟨c, hc, hd⟩

theorem Starts.str (h : Starts w '"') : ∃ t, w = .str t := by
  cases w with
  | str t => exact ⟨t, rfl⟩
  | arr => exact absurd (show '"' = '[' from h) (by decide)
  | obj => exact absurd (show '"' = '\x7b' from h) (by decide)
  | _ => exact absurd (show InWord '"' from h) (by decide)

theorem Starts.arr (h : Starts w '[') : ∃ ws, w = .arr ws := by
  cases w with
  | str => exact absurd (show '[' = '"' from h) (by decide)
  | arr ws => exact ⟨ws, rfl⟩
  | obj => exact absurd (show '[' = '\x7b' from h) (by decide)
  | _ => exact absurd (show InWord '[' from h) (by decide)

theorem Starts.obj (h : Starts w '\x7b') : ∃ gs, w = .obj gs := by
  cases w with
  | str => exact absurd (show '\x7b' = '"' from h) (by decide)
  | arr => exact absurd (show '\x7b' = '[' from h) (by decide)
  | obj gs => exact ⟨gs, rfl⟩
  | _ => exact absurd (show InWord '\x7b' from h) (by decide)

theorem Starts.plain {c : Char} (h : Starts w c) (hc : InWord c) : w.Plain := by
  cases w with
  | str =>
    obtain rfl : c = '"' := h
    exact absurd hc (by decide)
  | arr =>
    obtain rfl : c = '[' := h
    exact absurd hc (by decide)
  | obj =>
    obtain rfl : c = '\x7b' := h
    exact absurd hc (by decide)
  | _ => trivial

/-- What comes after an item or a field is no part of it. -/
theorem ends_charsOfItems (vs : List Json) (rest : List Char) : Ends (charsOfItems vs ++ rest) := by
  intro c hc
  cases vs with
  | nil =>
    obtain rfl : ']' = c := Option.some.inj hc
    decide
  | cons x xs =>
    obtain rfl : ',' = c := Option.some.inj hc
    decide

theorem ends_charsOfFields (fs : Fields) (rest : List Char) : Ends (charsOfFields fs ++ rest) := by
  intro c hc
  cases fs with
  | nil =>
    obtain rfl : '\x7d' = c := Option.some.inj hc
    decide
  | cons f fs =>
    obtain rfl : ',' = c := Option.some.inj hc
    decide

theorem chars_append_ne_bracket (v : Json) (rest cs : List Char) : v.chars ++ rest ≠ ']' :: cs := by
  obtain ⟨c, ds, hchars, hc⟩ := exists_starts v
  rw [hchars]
  intro h
  obtain rfl : c = ']' := (List.cons.inj h).1
  cases v with
  | str => exact absurd (show ']' = '"' from hc) (by decide)
  | arr => exact absurd (show ']' = '[' from hc) (by decide)
  | obj => exact absurd (show ']' = '\x7b' from hc) (by decide)
  | _ => exact absurd (show InWord ']' from hc) (by decide)

theorem charsOfField_append_ne_brace (f : String × Json) (rest cs : List Char) :
    charsOfField f ++ rest ≠ '\x7d' :: cs := by
  obtain ⟨k, v⟩ := f
  intro h
  exact absurd (show '"' = '\x7d' from (List.cons.inj h).1) (by decide)

mutual
theorem chars_append_inj (v w : Json) {rest rest' : List Char} (hrest : Ends rest)
    (hrest' : Ends rest') (h : v.chars ++ rest = w.chars ++ rest') : v = w ∧ rest = rest' := by
  obtain ⟨c, hv, hw⟩ := exists_starts_of_append h
  match v with
  | .null => exact Plain.append_inj trivial (hw.plain hv) h hrest hrest'
  | .bool b => exact Plain.append_inj trivial (hw.plain hv) h hrest hrest'
  | .int n => exact Plain.append_inj trivial (hw.plain hv) h hrest hrest'
  | .float x => exact Plain.append_inj trivial (hw.plain hv) h hrest hrest'
  | .str s =>
    obtain rfl : c = '"' := hv
    obtain ⟨t, rfl⟩ := hw.str
    obtain ⟨rfl, hcut⟩ := quote_append_inj h
    exact ⟨rfl, hcut⟩
  | .arr [] =>
    obtain rfl : c = '[' := hv
    obtain ⟨ws, rfl⟩ := hw.arr
    cases ws with
    | nil =>
      simp only [chars, List.cons_append, List.cons.injEq, List.nil_append, true_and] at h
      exact ⟨rfl, h⟩
    | cons y ys =>
      simp only [chars, List.cons_append, List.append_assoc, List.cons.injEq, true_and] at h
      exact absurd h.symm (chars_append_ne_bracket y _ _)
  | .arr (x :: xs) =>
    obtain rfl : c = '[' := hv
    obtain ⟨ws, rfl⟩ := hw.arr
    cases ws with
    | nil =>
      simp only [chars, List.cons_append, List.append_assoc, List.cons.injEq, true_and] at h
      exact absurd h (chars_append_ne_bracket x _ _)
    | cons y ys =>
      simp only [chars, List.cons_append, List.append_assoc, List.cons.injEq, true_and] at h
      obtain ⟨rfl, hitems⟩ := chars_append_inj x y (ends_charsOfItems xs rest)
        (ends_charsOfItems ys rest') h
      obtain ⟨rfl, hcut⟩ := charsOfItems_append_inj xs ys hitems
      exact ⟨rfl, hcut⟩
  | .obj [] =>
    obtain rfl : c = '\x7b' := hv
    obtain ⟨gs, rfl⟩ := hw.obj
    cases gs with
    | nil =>
      simp only [chars, List.cons_append, List.cons.injEq, List.nil_append, true_and] at h
      exact ⟨rfl, h⟩
    | cons g gs =>
      simp only [chars, List.cons_append, List.append_assoc, List.cons.injEq, true_and] at h
      exact absurd h.symm (charsOfField_append_ne_brace g _ _)
  | .obj (f :: fs) =>
    obtain rfl : c = '\x7b' := hv
    obtain ⟨gs, rfl⟩ := hw.obj
    cases gs with
    | nil =>
      simp only [chars, List.cons_append, List.append_assoc, List.cons.injEq, true_and] at h
      exact absurd h (charsOfField_append_ne_brace f _ _)
    | cons g gs =>
      simp only [chars, List.cons_append, List.append_assoc, List.cons.injEq, true_and] at h
      obtain ⟨rfl, hfields⟩ := charsOfField_append_inj f g (ends_charsOfFields fs rest)
        (ends_charsOfFields gs rest') h
      obtain ⟨rfl, hcut⟩ := charsOfFields_append_inj fs gs hfields
      exact ⟨rfl, hcut⟩
termination_by structural v

theorem charsOfItems_append_inj (vs ws : List Json) {rest rest' : List Char}
    (h : charsOfItems vs ++ rest = charsOfItems ws ++ rest') : vs = ws ∧ rest = rest' := by
  match vs, ws with
  | [], [] =>
    simp only [charsOfItems, List.cons_append, List.cons.injEq, List.nil_append, true_and] at h
    exact ⟨rfl, h⟩
  | [], _ :: _ => exact absurd (show ']' = ',' from (List.cons.inj h).1) (by decide)
  | _ :: _, [] => exact absurd (show ',' = ']' from (List.cons.inj h).1) (by decide)
  | x :: xs, y :: ys =>
    simp only [charsOfItems, List.cons_append, List.append_assoc, List.cons.injEq, true_and] at h
    obtain ⟨rfl, hitems⟩ := chars_append_inj x y (ends_charsOfItems xs rest)
      (ends_charsOfItems ys rest') h
    obtain ⟨rfl, hcut⟩ := charsOfItems_append_inj xs ys hitems
    exact ⟨rfl, hcut⟩
termination_by structural vs

theorem charsOfField_append_inj (f g : String × Json) {rest rest' : List Char}
    (hrest : Ends rest) (hrest' : Ends rest')
    (h : charsOfField f ++ rest = charsOfField g ++ rest') : f = g ∧ rest = rest' := by
  match f, g with
  | (k, v), (l, w) =>
    simp only [charsOfField, List.append_assoc, List.cons_append] at h
    obtain ⟨rfl, hvalue⟩ := quote_append_inj h
    simp only [List.cons.injEq, true_and] at hvalue
    obtain ⟨rfl, hcut⟩ := chars_append_inj v w hrest hrest' hvalue
    exact ⟨rfl, hcut⟩
termination_by structural f

theorem charsOfFields_append_inj (fs gs : List (String × Json)) {rest rest' : List Char}
    (h : charsOfFields fs ++ rest = charsOfFields gs ++ rest') : fs = gs ∧ rest = rest' := by
  match fs, gs with
  | [], [] =>
    simp only [charsOfFields, List.cons_append, List.cons.injEq, List.nil_append, true_and] at h
    exact ⟨rfl, h⟩
  | [], _ :: _ => exact absurd (show '\x7d' = ',' from (List.cons.inj h).1) (by decide)
  | _ :: _, [] => exact absurd (show ',' = '\x7d' from (List.cons.inj h).1) (by decide)
  | f :: fs, g :: gs =>
    simp only [charsOfFields, List.cons_append, List.append_assoc, List.cons.injEq, true_and] at h
    obtain ⟨rfl, hfields⟩ := charsOfField_append_inj f g (ends_charsOfFields fs rest)
      (ends_charsOfFields gs rest') h
    obtain ⟨rfl, hcut⟩ := charsOfFields_append_inj fs gs hfields
    exact ⟨rfl, hcut⟩
termination_by structural fs
end

/-- Different values have different texts. -/
theorem chars_injective : Function.Injective chars := by
  intro v w h
  have hends : Ends [] := by simp [Ends]
  exact (chars_append_inj v w hends hends (by rw [h])).1

/-! Texts are ASCII, so their bytes tell them. -/

theorem toNat_lt_of_inWord {c : Char} (h : InWord c) : c.toNat < 128 := by
  rcases h with h | h
  · have hname : isNameChar c = true := by rw [isNameChar, h, Bool.true_or]
    have := Variables.toNat_of_isNameChar hname
    omega
  · have hsigns : ∀ c ∈ ['.', '+', '-'], c.toNat < 128 := by simp
    exact hsigns c h

theorem toNat_lt_of_mem_hexDigits {width n : Nat} : ∀ c ∈ hexDigits width n, c.toNat < 128 := by
  have hdigit : ∀ d < 16, (hexDigit d).toNat < 128 := by decide
  induction width generalizing n with
  | zero => exact fun _ hc => absurd hc List.not_mem_nil
  | succ width ih =>
    rw [hexDigits, List.forall_mem_append]
    exact ⟨ih, List.forall_mem_singleton.mpr (hdigit _ (Nat.mod_lt n (by decide)))⟩

theorem toNat_lt_of_mem_escape (c : Char) : ∀ d ∈ escape c, d.toNat < 128 := by
  have hunit : ∀ u, ∀ d ∈ escapeUnit u, d.toNat < 128 := by
    intro u
    simp only [escapeUnit, List.forall_mem_cons]
    exact ⟨by decide, by decide, toNat_lt_of_mem_hexDigits⟩
  have hletters : ∀ p ∈ escapeLetters, ∀ d ∈ ['\\', p.2], d.toNat < 128 := by
    simp [escapeLetters]
  have hescaped := escaped_escape c
  generalize escape c = code at hescaped
  cases hescaped with
  | plain _ h => exact List.forall_mem_singleton.mpr (by omega)
  | letter h => exact hletters _ h
  | unit => exact hunit _
  | pair => exact List.forall_mem_append.mpr ⟨hunit _, hunit _⟩

theorem toNat_lt_of_mem_quote (s : String) : ∀ c ∈ quote s, c.toNat < 128 := by
  rw [quote, quoteChars, List.forall_mem_cons, List.forall_mem_append]
  refine ⟨by decide, fun c hc => ?_, List.forall_mem_singleton.mpr (by decide)⟩
  obtain ⟨d, -, hd⟩ := List.mem_flatMap.mp hc
  exact toNat_lt_of_mem_escape d c hd

mutual
theorem toNat_lt_of_mem_chars (v : Json) : ∀ c ∈ v.chars, c.toNat < 128 := by
  match v with
  | .null => exact fun c hc => toNat_lt_of_inWord (Plain.inWord (v := .null) trivial c hc)
  | .bool b => exact fun c hc => toNat_lt_of_inWord (Plain.inWord (v := .bool b) trivial c hc)
  | .int n => exact fun c hc => toNat_lt_of_inWord (Plain.inWord (v := .int n) trivial c hc)
  | .float x => exact fun c hc => toNat_lt_of_inWord (Plain.inWord (v := .float x) trivial c hc)
  | .str s => exact toNat_lt_of_mem_quote s
  | .arr [] => simp [chars]
  | .arr (x :: xs) =>
    rw [chars, List.forall_mem_cons, List.forall_mem_append]
    exact ⟨by decide, toNat_lt_of_mem_chars x, toNat_lt_of_mem_charsOfItems xs⟩
  | .obj [] => simp [chars]
  | .obj (f :: fs) =>
    rw [chars, List.forall_mem_cons, List.forall_mem_append]
    exact ⟨by decide, toNat_lt_of_mem_charsOfField f, toNat_lt_of_mem_charsOfFields fs⟩

theorem toNat_lt_of_mem_charsOfItems (vs : List Json) : ∀ c ∈ charsOfItems vs, c.toNat < 128 := by
  match vs with
  | [] => simp [charsOfItems]
  | x :: xs =>
    rw [charsOfItems, List.forall_mem_cons, List.forall_mem_cons, List.forall_mem_append]
    exact ⟨by decide, by decide, toNat_lt_of_mem_chars x, toNat_lt_of_mem_charsOfItems xs⟩

theorem toNat_lt_of_mem_charsOfField (f : String × Json) :
    ∀ c ∈ charsOfField f, c.toNat < 128 := by
  match f with
  | (k, x) =>
    rw [charsOfField, List.forall_mem_append, List.forall_mem_cons, List.forall_mem_cons]
    exact ⟨toNat_lt_of_mem_quote k, by decide, by decide, toNat_lt_of_mem_chars x⟩

theorem toNat_lt_of_mem_charsOfFields (fs : List (String × Json)) :
    ∀ c ∈ charsOfFields fs, c.toNat < 128 := by
  match fs with
  | [] => simp [charsOfFields]
  | f :: fs =>
    rw [charsOfFields, List.forall_mem_cons, List.forall_mem_cons, List.forall_mem_append]
    exact ⟨by decide, by decide, toNat_lt_of_mem_charsOfField f, toNat_lt_of_mem_charsOfFields fs⟩
end

end ScriptFlow.Json
