import ScriptFlow.Proofs.Written
import ScriptFlow.Variables
import Mathlib.Data.List.Induction
import Mathlib.Data.List.TakeWhile

/-! The variables that a configuration reads are looked for in its text, where strings are escaped and
stand between punctuation. The tokens that are found there are those of the keys and the strings as
they are: an escape and a quote are characters that no token has, so a token is neither cut nor made
by them, and no other punctuation has two braces in a row. -/

namespace ScriptFlow

/-! The keys and strings of a value, in the order in which they are written. -/

namespace Json

mutual
def texts : Json → List String
  | .str s => [s]
  | .arr vs => textsOfItems vs
  | .obj fs => textsOfFields fs
  | .null | .bool _ | .int _ | .float _ => []

def textsOfItems : List Json → List String
  | [] => []
  | v :: vs => texts v ++ textsOfItems vs

def textsOfFields : List (String × Json) → List String
  | [] => []
  | (k, v) :: fs => k :: (texts v ++ textsOfFields fs)
end

theorem textsOfFields_cons (f : String × Json) (fs : Fields) :
    textsOfFields (f :: fs) = (f.1 :: f.2.texts) ++ textsOfFields fs := rfl

end Json

namespace Variables

/-- A run of letters, digits and underscores. -/
def IsName (name : List Char) : Prop := name ≠ [] ∧ ∀ c ∈ name, isNameChar c = true

/-- A name between double braces. -/
def token (name : List Char) : List Char :=
  '\x7b' :: '\x7b' :: (name ++ ['\x7d', '\x7d'])

/-- The names of the tokens of a text: first that of the leftmost token, then those of what comes
after it. -/
inductive Scanned : List Char → List String → Prop
  | done {cs : List Char} (clear : ∀ skipped name rest, IsName name →
      cs ≠ skipped ++ (token name ++ rest)) : Scanned cs []
  | found {skipped name rest : List Char} {names : List String} (named : IsName name)
      (leftmost : ∀ skipped' name' rest', IsName name' →
        skipped ++ (token name ++ rest) = skipped' ++ (token name' ++ rest') →
          skipped.length ≤ skipped'.length) (after : Scanned rest names) :
      Scanned (skipped ++ (token name ++ rest)) (String.ofList name :: names)

/-- The name of a token ends where no character of names comes. -/
theorem takeWhile_name {name : List Char} (h : ∀ c ∈ name, isNameChar c = true)
    (rest : List Char) :
    (name ++ '\x7d' :: rest).takeWhile isNameChar = name ∧
      (name ++ '\x7d' :: rest).dropWhile isNameChar = '\x7d' :: rest := by
  have hbrace : ¬ isNameChar '\x7d' = true := by decide
  rw [List.takeWhile_append_of_pos h, List.dropWhile_append_of_pos h,
    List.takeWhile_cons_of_neg hbrace, List.dropWhile_cons_of_neg hbrace, List.append_nil]
  exact ⟨rfl, rfl⟩

theorem tokenAt?_eq_some {cs name rest : List Char} :
    tokenAt? cs = some (name, rest) ↔ IsName name ∧ cs = token name ++ rest := by
  constructor
  · intro h
    unfold tokenAt? at h
    split at h
    · next cs =>
      dsimp only at h
      split at h
      · next rest' hdrop =>
        split at h
        · cases h
        · next hne =>
          simp only [Option.some.injEq, Prod.mk.injEq] at h
          obtain ⟨rfl, rfl⟩ := h
          refine ⟨⟨by simpa using hne, fun c hc => List.mem_takeWhile_imp hc⟩, ?_⟩
          have hcut := List.takeWhile_append_dropWhile (p := isNameChar) (l := cs)
          rw [hdrop] at hcut
          simp [token, hcut]
      · cases h
    · cases h
  · rintro ⟨⟨hne, hname⟩, rfl⟩
    obtain ⟨htake, hdrop⟩ := takeWhile_name hname ('\x7d' :: rest)
    simp [tokenAt?, token, htake, hdrop, hne]

theorem tokens_nil : tokens [] = [] := by
  rw [tokens]
  rfl

theorem tokens_token_append {name : List Char} (h : IsName name) (rest : List Char) :
    tokens (token name ++ rest) = String.ofList name :: tokens rest := by
  have ht : tokenAt? (token name ++ rest) = some (name, rest) := tokenAt?_eq_some.mpr ⟨h, rfl⟩
  rw [tokens]
  split
  · next ht' =>
    cases ht.symm.trans ht'
    rfl
  · next ht' => cases ht.symm.trans ht'

theorem tokens_cons {c : Char} {cs : List Char} (h : tokenAt? (c :: cs) = none) :
    tokens (c :: cs) = tokens cs := by
  rw [tokens]
  split
  · next ht => cases h.symm.trans ht
  · rfl

/-- What is found is what there is, from the left. -/
theorem scanned_tokens (cs : List Char) : Scanned cs (tokens cs) := by
  fun_induction tokens cs with
  | case1 cs name rest ht _ ih =>
    obtain ⟨hname, rfl⟩ := tokenAt?_eq_some.mp ht
    exact @Scanned.found [] _ _ _ hname (fun _ _ _ _ _ => Nat.zero_le _) ih
  | case2 =>
    refine .done fun skipped name rest _ h => ?_
    simp [token] at h
  | case3 c rest ht ih =>
    -- no token is at the front, so the first one is where it is without the front
    have hfront : ∀ {name rest' : List Char}, IsName name → c :: rest ≠ token name ++ rest' := by
      intro name rest' hname h
      cases ht.symm.trans (tokenAt?_eq_some.mpr ⟨hname, h⟩)
    generalize tokens rest = names at ih
    cases ih with
    | done clear =>
      refine .done fun skipped name rest' hname h => ?_
      cases skipped with
      | nil => exact hfront hname h
      | cons d skipped => exact clear skipped name rest' hname (List.cons.inj h).2
    | @found skipped name rest' names hname leftmost after =>
      refine @Scanned.found (c :: skipped) _ _ _ hname ?_ after
      intro skipped' name' rest'' hname' h
      cases skipped' with
      | nil => exact absurd h (hfront hname')
      | cons d skipped' =>
        have hle := leftmost skipped' name' rest'' hname' (List.cons.inj h).2
        simpa using hle

theorem token_append_inj {name name' rest rest' : List Char} (h : IsName name) (h' : IsName name')
    (heq : token name ++ rest = token name' ++ rest') : name = name' ∧ rest = rest' := by
  have ht : tokenAt? (token name' ++ rest') = some (name, rest) :=
    tokenAt?_eq_some.mpr ⟨h, heq.symm⟩
  rw [tokenAt?_eq_some.mpr ⟨h', rfl⟩, Option.some.injEq, Prod.mk.injEq] at ht
  exact ⟨ht.1.symm, ht.2.symm⟩

/-- A text has its tokens in one way. -/
theorem Scanned.unique {cs : List Char} {names names' : List String} (h : Scanned cs names)
    (h' : Scanned cs names') : names = names' := by
  induction h generalizing names' with
  | done clear =>
    cases h' with
    | done => rfl
    | found named => exact absurd rfl (clear _ _ _ named)
  | @found skipped name rest names named leftmost after ih =>
    generalize hcs : skipped ++ (token name ++ rest) = cs at h'
    cases h' with
    | done clear => exact absurd hcs.symm (clear _ _ _ named)
    | found named' leftmost' after' =>
      have hlength := Nat.le_antisymm (leftmost _ _ _ named' hcs) (leftmost' _ _ _ named hcs.symm)
      obtain ⟨rfl, hrest⟩ := List.append_inj hcs hlength
      obtain ⟨rfl, rfl⟩ := token_append_inj named named' hrest
      rw [ih after']

theorem scanned_iff {cs : List Char} {names : List String} :
    Scanned cs names ↔ tokens cs = names :=
  ⟨fun h => (scanned_tokens cs).unique h, fun h => h ▸ scanned_tokens cs⟩

/-! Characters that no token has. -/

/-- Neither a brace nor a character of names. -/
def Inert (c : Char) : Prop := c ≠ '\x7b' ∧ c ≠ '\x7d' ∧ ¬ isNameChar c = true

instance (c : Char) : Decidable (Inert c) := inferInstanceAs (Decidable (_ ∧ _ ∧ _))

theorem Inert.not_mem_token {c : Char} (h : Inert c) {name : List Char} (hname : IsName name) :
    c ∉ token name := by
  intro hc
  simp only [token, List.mem_cons, List.mem_append, List.not_mem_nil, or_false] at hc
  rcases hc with hc | hc | hc | hc | hc
  · exact h.1 hc
  · exact h.1 hc
  · exact h.2.2 (hname.2 c hc)
  · exact h.2.1 hc
  · exact h.2.1 hc

/-- Only a brace starts a token. -/
theorem tokens_cons_of_ne {c : Char} (h : c ≠ '\x7b') (cs : List Char) :
    tokens (c :: cs) = tokens cs := by
  refine tokens_cons (Option.eq_none_iff_forall_ne_some.mpr ?_)
  rintro ⟨name, rest⟩ ht
  exact h (List.cons.inj (tokenAt?_eq_some.mp ht).2).1

/-- One brace does not start a token. -/
theorem tokens_brace_cons {c : Char} (h : c ≠ '\x7b') (cs : List Char) :
    tokens ('\x7b' :: c :: cs) = tokens (c :: cs) := by
  refine tokens_cons ?_
  refine Option.eq_none_iff_forall_ne_some.mpr ?_
  rintro ⟨name, rest⟩ ht
  exact h (List.cons.inj (List.cons.inj (tokenAt?_eq_some.mp ht).2).2).1

theorem tokens_append_of_forall_ne {cs : List Char} (h : ∀ c ∈ cs, c ≠ '\x7b')
    (rest : List Char) : tokens (cs ++ rest) = tokens rest := by
  induction cs with
  | nil => rfl
  | cons c cs ih =>
    rw [List.cons_append, tokens_cons_of_ne (h c List.mem_cons_self),
      ih fun d hd => h d (List.mem_cons_of_mem _ hd)]

/-- No token goes over a character that no token has. -/
theorem tokens_append_inert {c : Char} (h : Inert c) (cs rest : List Char) :
    tokens (cs ++ c :: rest) = tokens cs ++ tokens rest := by
  fun_induction tokens cs with
  | case1 cs name rest' ht _ ih =>
    obtain ⟨hname, rfl⟩ := tokenAt?_eq_some.mp ht
    rw [List.append_assoc, tokens_token_append hname, ih, List.cons_append]
  | case2 => exact tokens_cons_of_ne h.1 rest
  | case3 d cs ht ih =>
    rw [List.cons_append, tokens_cons, ih]
    refine Option.eq_none_iff_forall_ne_some.mpr ?_
    rintro ⟨name, rest'⟩ ht'
    obtain ⟨hname, heq⟩ := tokenAt?_eq_some.mp ht'
    have hfront : ∀ cs' : List Char, d :: cs ≠ token name ++ cs' := by
      intro cs' hcs
      cases ht.symm.trans (tokenAt?_eq_some.mpr ⟨hname, hcs⟩)
    rw [← List.cons_append] at heq
    rcases List.append_eq_append_iff.mp heq with ⟨cut, htoken, hcut⟩ | ⟨cut, hcs, -⟩
    · cases cut with
      | nil => exact hfront [] (by rw [htoken, List.append_nil, List.append_nil])
      | cons e cut =>
        obtain rfl := (List.cons.inj hcut).1
        exact h.not_mem_token hname (by rw [htoken]; simp)
    · exact hfront cut hcs

/-- Names are written in ASCII. -/
theorem toNat_of_isNameChar {c : Char} (h : isNameChar c = true) :
    48 ≤ c.toNat ∧ c.toNat ≤ 122 := by
  change (((decide (65 ≤ c.val ∧ c.val ≤ 90) || (97 ≤ c.val && c.val ≤ 122)) ||
    (48 ≤ c.val && c.val ≤ 57)) || c = '_') = true at h
  simp only [Bool.or_eq_true, Bool.and_eq_true, decide_eq_true_eq, UInt32.le_iff_toNat_le] at h
  change (((65 ≤ c.toNat ∧ c.toNat ≤ 90) ∨ (97 ≤ c.toNat ∧ c.toNat ≤ 122)) ∨
    (48 ≤ c.toNat ∧ c.toNat ≤ 57)) ∨ c = '_' at h
  rcases h with ((h | h) | h) | rfl
  · omega
  · omega
  · omega
  · decide

theorem inert_of_toNat {c : Char} (h : c.toNat < 32 ∨ 127 ≤ c.toNat) : Inert c := by
  refine ⟨?_, ?_, fun hname => ?_⟩
  · rintro rfl
    exact absurd h (by decide)
  · rintro rfl
    exact absurd h (by decide)
  · have := toNat_of_isNameChar hname
    omega

end Variables

/-! Strings as they are written. -/

theorem hexDigits_ne_brace (width n : Nat) : ∀ c ∈ hexDigits width n, c ≠ '\x7b' := by
  have hdigit : ∀ d < 16, Nat.digitChar d ≠ '\x7b' := by decide
  induction width generalizing n with
  | zero => exact fun _ hc => absurd hc List.not_mem_nil
  | succ width ih =>
    rw [hexDigits, List.forall_mem_append]
    exact ⟨ih _, List.forall_mem_singleton.mpr (hdigit _ (Nat.mod_lt n (by decide)))⟩

namespace Json

/-- A character stands for itself, or no token has it and a backslash and a code without braces stand
for it. -/
theorem escape_cases (c : Char) : escape c = [c] ∨ Variables.Inert c ∧
    ∃ code, escape c = '\\' :: code ∧ ∀ d ∈ code, d ≠ '\x7b' := by
  have hunit : ∀ u, ∀ d ∈ escapeUnit u, d ≠ '\x7b' := by
    intro u
    simp only [escapeUnit, List.forall_mem_cons]
    exact ⟨by decide, by decide, hexDigits_ne_brace 4 u⟩
  have hletters : ∀ p ∈ escapeLetters, Variables.Inert p.1 ∧ p.2 ≠ '\x7b' := by decide
  have hescaped := escaped_escape c
  generalize escape c = code at hescaped
  cases hescaped with
  | plain => exact Or.inl rfl
  | letter h =>
    obtain ⟨hinert, hbrace⟩ := hletters _ h
    exact Or.inr ⟨hinert, _, rfl, List.forall_mem_singleton.mpr hbrace⟩
  | unit hcode =>
    exact Or.inr ⟨Variables.inert_of_toNat hcode, _, rfl, (List.forall_mem_cons.mp (hunit _)).2⟩
  | pair hcode =>
    refine Or.inr ⟨Variables.inert_of_toNat (by omega), _, rfl, ?_⟩
    exact List.forall_mem_append.mpr ⟨(List.forall_mem_cons.mp (hunit _)).2, hunit _⟩

/-- The tokens of a string are those of the string inside quotes, after anything. -/
theorem tokens_append_escaped (before cs : List Char) :
    Variables.tokens (before ++ cs.flatMap escape) = Variables.tokens (before ++ cs) := by
  induction cs generalizing before with
  | nil => rfl
  | cons c cs ih =>
    rw [List.flatMap_cons]
    rcases escape_cases c with h | ⟨hinert, code, h, hcode⟩
    · rw [h, ← List.append_assoc, ih, List.append_assoc, List.singleton_append]
    · have hbackslash : Variables.Inert '\\' := by decide
      have hrest := ih []
      rw [List.nil_append, List.nil_append] at hrest
      rw [h, List.cons_append, Variables.tokens_append_inert hbackslash,
        Variables.tokens_append_of_forall_ne hcode, Variables.tokens_append_inert hinert, hrest]

theorem tokens_quote_append (s : String) (rest : List Char) :
    Variables.tokens (quote s ++ rest) = Variables.tokens s.toList ++ Variables.tokens rest := by
  have hquote : Variables.Inert '"' := by decide
  rw [quote, quoteChars, List.cons_append, Variables.tokens_cons_of_ne hquote.1,
    List.append_assoc, List.singleton_append, Variables.tokens_append_inert hquote]
  exact congrArg (· ++ _) (tokens_append_escaped [] s.toList)

/-- A word is no part of a token. -/
theorem Plain.tokens_append {v : Json} (h : v.Plain) (rest : List Char) :
    Variables.tokens (v.chars ++ rest) = Variables.tokens rest := by
  refine Variables.tokens_append_of_forall_ne (fun c hc => ?_) rest
  rintro rfl
  have hbrace : ¬ InWord '\x7b' := by
    unfold InWord
    decide
  exact hbrace (h.inWord _ hc)

/-- The tokens of the keys and strings of a value, one after the other. -/
def stringTokens (texts : List String) : List String :=
  texts.flatMap fun s => Variables.tokens s.toList

theorem stringTokens_cons (s : String) (texts : List String) :
    stringTokens (s :: texts) = Variables.tokens s.toList ++ stringTokens texts :=
  List.flatMap_cons

theorem stringTokens_append (texts texts' : List String) :
    stringTokens (texts ++ texts') = stringTokens texts ++ stringTokens texts' :=
  List.flatMap_append

mutual
theorem tokens_chars_append (v : Json) (rest : List Char) :
    Variables.tokens (v.chars ++ rest) = stringTokens v.texts ++ Variables.tokens rest := by
  match v with
  | .null => exact Plain.tokens_append (v := .null) trivial rest
  | .bool b => exact Plain.tokens_append (v := .bool b) trivial rest
  | .int n => exact Plain.tokens_append (v := .int n) trivial rest
  | .float x => exact Plain.tokens_append (v := .float x) trivial rest
  | .str s =>
    rw [chars, texts, tokens_quote_append]
    simp [stringTokens]
  | .arr [] =>
    have hmarks : ∀ c ∈ ['[', ']'], c ≠ '\x7b' := by simp
    exact Variables.tokens_append_of_forall_ne hmarks rest
  | .arr (x :: xs) =>
    rw [chars, texts, textsOfItems, stringTokens_append, List.cons_append,
      Variables.tokens_cons_of_ne (by decide), List.append_assoc, tokens_chars_append x,
      tokens_charsOfItems_append xs, List.append_assoc]
  | .obj [] =>
    exact (Variables.tokens_brace_cons (by decide) rest).trans
      (Variables.tokens_cons_of_ne (by decide) rest)
  | .obj ((k, x) :: fs) =>
    have hquote : ∀ cs, Variables.tokens ('\x7b' :: (charsOfField (k, x) ++ cs)) =
        Variables.tokens (charsOfField (k, x) ++ cs) :=
      fun cs => Variables.tokens_brace_cons (c := '"') (by decide) _
    rw [chars, texts, textsOfFields_cons, stringTokens_append, List.cons_append, List.append_assoc,
      hquote, tokens_charsOfField_append (k, x), tokens_charsOfFields_append fs, List.append_assoc]

theorem tokens_charsOfItems_append (vs : List Json) (rest : List Char) :
    Variables.tokens (charsOfItems vs ++ rest) =
      stringTokens (textsOfItems vs) ++ Variables.tokens rest := by
  match vs with
  | [] => exact Variables.tokens_cons_of_ne (by decide) rest
  | x :: xs =>
    rw [charsOfItems, textsOfItems, stringTokens_append, List.cons_append, List.cons_append,
      Variables.tokens_cons_of_ne (by decide), Variables.tokens_cons_of_ne (by decide),
      List.append_assoc, tokens_chars_append x, tokens_charsOfItems_append xs, List.append_assoc]

theorem tokens_charsOfField_append (f : String × Json) (rest : List Char) :
    Variables.tokens (charsOfField f ++ rest) =
      stringTokens (f.1 :: f.2.texts) ++ Variables.tokens rest := by
  match f with
  | (k, x) =>
    rw [charsOfField, stringTokens_cons, List.append_assoc, tokens_quote_append, List.cons_append,
      List.cons_append, Variables.tokens_cons_of_ne (by decide),
      Variables.tokens_cons_of_ne (by decide), tokens_chars_append x, List.append_assoc]

theorem tokens_charsOfFields_append (fs : List (String × Json)) (rest : List Char) :
    Variables.tokens (charsOfFields fs ++ rest) =
      stringTokens (textsOfFields fs) ++ Variables.tokens rest := by
  match fs with
  | [] => exact Variables.tokens_cons_of_ne (by decide) rest
  | f :: fs =>
    rw [charsOfFields, textsOfFields_cons, stringTokens_append, List.cons_append, List.cons_append,
      Variables.tokens_cons_of_ne (by decide), Variables.tokens_cons_of_ne (by decide),
      List.append_assoc, tokens_charsOfField_append f, tokens_charsOfFields_append fs,
      List.append_assoc]
end

/-- A value has the tokens of its keys and strings. -/
theorem tokens_chars (v : Json) : Variables.tokens v.chars = stringTokens v.texts := by
  have h := tokens_chars_append v []
  rwa [List.append_nil, Variables.tokens_nil, List.append_nil] at h

end Json

theorem Text.isDoubled_iff {c : Char} {cs : List Char} :
    isDoubled c cs = true ↔ [c, c] <:+: cs := by
  fun_induction isDoubled c cs with
  | case1 a b cs ih =>
    have hfront : (decide (a = c) && decide (b = c)) = true ↔ [c, c] <+: a :: b :: cs := by
      simp only [List.cons_prefix_cons, List.nil_prefix, and_true, Bool.and_eq_true,
        decide_eq_true_eq]
      exact and_congr eq_comm eq_comm
    rw [Bool.or_eq_true, ih, hfront, ← List.infix_cons_iff]
  | case2 cs hcs =>
    refine ⟨fun h => absurd h Bool.false_ne_true, fun h => ?_⟩
    have hlength := h.length_le
    match cs with
    | [] => simp at hlength
    | [_] => simp at hlength
    | a :: b :: cs => exact absurd rfl (hcs a b cs)

namespace Variables

/-- Adding what is new leaves every name at its first place. -/
theorem foldl_addNew (names : List String) : names.foldl addNew [] = names.eraseDups := by
  induction names using List.reverseRecOn with
  | nil => rfl
  | append_singleton names name ih =>
    rw [List.foldl_append, ih, List.eraseDups_append]
    by_cases h : name ∈ names
    · simp [addNew, List.removeAll, h]
    · simp [addNew, List.removeAll, h, List.eraseDups_cons]

theorem inputs_eq (config : Fields) : inputs config =
    (tokens (Json.obj (config.without [noteKey])).chars ++
      (bareSource? config).toList).eraseDups := by
  rw [← foldl_addNew, List.foldl_append, inputs]
  cases bareSource? config <;> rfl

theorem bareSource?_eq_some {config : Fields} {s : String} : bareSource? config = some s ↔
    config.get? "source" = some (.str s) ∧ s ≠ "" ∧ ¬ ['\x7b', '\x7b'] <:+: s.toList := by
  have hvalue : config.value "source" = .str s ↔ config.get? "source" = some (.str s) := by
    rw [Fields.value]
    cases config.get? "source" <;> simp
  rw [← hvalue, ← Text.isDoubled_iff, bareSource?]
  split
  · next t ht =>
    split
    · next h => grind
    · next h => grind
  · next h => grind

/-- What a configuration reads is told by its keys and strings, each for itself. The tokens of a text
are the leftmost ones that do not overlap; those of the text of the configuration, without the note,
are those of its keys and strings in order. A configuration reads each name that is found once, where
it comes first, and then its source, if that is no template. -/
theorem inputs_exact (config : Fields) :
    (∀ cs names, Scanned cs names ↔ tokens cs = names) ∧
    tokens (Json.obj (config.without [noteKey])).chars =
      (Json.obj (config.without [noteKey])).texts.flatMap (fun s => tokens s.toList) ∧
    inputs config = ((Json.obj (config.without [noteKey])).texts.flatMap
      (fun s => tokens s.toList) ++ (bareSource? config).toList).eraseDups ∧
    ∀ s, bareSource? config = some s ↔ config.get? "source" = some (.str s) ∧ s ≠ "" ∧
      ¬ ['\x7b', '\x7b'] <:+: s.toList := by
  have hchars := Json.tokens_chars (.obj (config.without [noteKey]))
  refine ⟨fun _ _ => scanned_iff, hchars, ?_, fun _ => bareSource?_eq_some⟩
  rw [inputs_eq, hchars]
  rfl

/-- A token inside braces, a brace inside a token, escapes beside and inside tokens, a template in a
key, and a note that is not read. -/
example : inputs [("\x7b\x7bkey\x7d\x7d", .str "\x7b\x7b\x7b\x7bx\x7d\x7d\x7d\x7d"),
    ("list", .arr [.str "\x7b\x7ba\x7b\x7bb\x7d\x7d", .str "\n\x7b\x7bc\x7d\x7d\"",
      .str "\x7b\x7bé\x7d\x7d"]),
    ("source", .str "rows"), ("_aiNote", .str "\x7b\x7bnote\x7d\x7d")] =
      ["key", "x", "b", "c", "rows"] := by
  cbv

end Variables

end ScriptFlow
