import ScriptFlow.Proofs.RoundTrip
import ScriptFlow.Proofs.Shape

/-! No structure is lost in drawing: two documents whose flows agree have the same capabilities.
What stands at a node says how an action begins. Where it ends is told by the links alone: a loop
and an `if` with an empty branch go on by themselves, and any other `if` goes on where its first
branch goes on, which ends where the second one is entered. -/

namespace ScriptFlow

namespace Onward

/-- The flow goes on outside the numbers from `n` to `stop`. -/
def Outside (n stop : Nat) : Onward → Prop
  | stops => True
  | goesTo m => stop ≤ m
  | backTo m => m < n

variable {k k' : Onward} {n stop : Nat}

theorem Outside.mono {n' stop' : Nat} (h : k.Outside n stop) (hn : n ≤ n') (hs : stop' ≤ stop) :
    k.Outside n' stop' := by
  cases k with
  | stops => trivial
  | goesTo m => exact Nat.le_trans hs h
  | backTo m => exact Nat.lt_of_lt_of_le h hn

/-- After the first action the flow goes on outside it. -/
theorem Outside.before {a : Action} {as : List Action}
    (h : k.Outside n (n + Action.listSize (a :: as))) :
    (k.before (n + a.size) as).Outside n (n + a.size) := by
  cases as with
  | nil => exact h.mono (Nat.le_refl _) (by rw [Action.listSize]; omega)
  | cons b bs => exact Nat.le_refl (n + a.size)

theorem before_eq_of_listSize (k : Onward) (n : Nat) {as bs : List Action}
    (h : Action.listSize as = Action.listSize bs) : k.before n as = k.before n bs := by
  cases as with
  | nil =>
    cases bs with
    | nil => rfl
    | cons b bs => exact absurd h (Nat.ne_of_lt (Action.listSize_pos (List.cons_ne_nil b bs)))
  | cons a as =>
    cases bs with
    | nil => exact absurd h.symm (Nat.ne_of_lt (Action.listSize_pos (List.cons_ne_nil a as)))
    | cons b bs => rfl

theorem eq_of_links_subset (hne : k ≠ stops) (h : ∀ l ∈ k.links n, l ∈ k'.links n) : k = k' := by
  cases k with
  | stops => exact absurd rfl hne
  | goesTo m =>
    rcases (mem_links.mp (h ⟨n, m, .none⟩ List.mem_cons_self)).2 with ⟨-, hk⟩ | ⟨hb, -⟩
    · exact hk.symm
    · cases hb
  | backTo m =>
    rcases (mem_links.mp (h ⟨n, m, .loopBack⟩ List.mem_cons_self)).2 with ⟨hb, -⟩ | ⟨-, hk⟩
    · cases hb
    · exact hk.symm

/-- Two ways on are the same if neither has a link that the other has not. -/
theorem eq_of_eq (h : k ≠ stops → k = k') (h' : k' ≠ stops → k' = k) : k = k' := by
  by_cases hk : k = stops
  · by_cases hk' : k' = stops
    · rw [hk, hk']
    · exact (h' hk').symm
  · exact h hk

/-- The size of the first action is known by where the flow goes on after it. -/
theorem size_eq_of_before_eq {a b : Action} {as bs : List Action}
    (hk : k.Outside n (n + Action.listSize (a :: as)))
    (hsize : Action.listSize (a :: as) = Action.listSize (b :: bs))
    (h : k.before (n + a.size) as = k.before (n + b.size) bs) : a.size = b.size := by
  simp only [Action.listSize] at hsize hk
  cases as with
  | nil =>
    cases bs with
    | nil => simpa [Action.listSize] using hsize
    | cons c cs =>
      rw [before_nil, before_cons] at h
      subst h
      have := Action.listSize_pos (List.cons_ne_nil c cs)
      simp only [Outside] at hk
      omega
  | cons c cs =>
    cases bs with
    | nil =>
      rw [before_nil, before_cons] at h
      subst h
      have := Action.listSize_pos (List.cons_ne_nil c cs)
      simp only [Outside] at hk
      omega
    | cons d ds =>
      have := goesTo.inj h
      omega

end Onward

/-- A loop head is told by its type and its fields. -/
theorem LoopHead.eq_of_fields {h h' : LoopHead} (htype : h.type = h'.type)
    (hfields : h.fields = h'.fields) : h = h' := by
  have hget : ∀ key, h.fields.get? key = h'.fields.get? key := fun key => by rw [hfields]
  cases h with
  | forEach source itemAs =>
    cases h' with
    | forEach source' itemAs' =>
      have hs := hget "source"
      have hi := hget "itemAs"
      simp [LoopHead.fields, Fields.get?_append, Fields.get?_optionalField] at hs hi
      rw [hs, hi]
    | whileLoop => simp [LoopHead.type] at htype
  | whileLoop condition maxIterations =>
    cases h' with
    | forEach => simp [LoopHead.type] at htype
    | whileLoop condition' maxIterations' =>
      have hc := hget "condition"
      have hm := hget "maxIterations"
      simp [LoopHead.fields, Fields.get?_append, Fields.get?_optionalField] at hc hm
      rw [hc, hm]

namespace Action

/-- An action without the actions in it. -/
def bare : Action → Action
  | leaf t fields => leaf t fields
  | branch condition extra _ _ => branch condition extra [] []
  | loop head extra _ => loop head extra []

variable {a b : Action}

theorem eq_leaf_of_bare {t : String} {fields : Fields} (h : bare (leaf t fields) = b.bare) :
    b = leaf t fields := by
  cases b with
  | leaf => exact h.symm
  | _ => cases h

theorem exists_branch_of_bare {condition : Option Json} {extra : Fields} {ts es : List Action}
    (h : bare (branch condition extra ts es) = b.bare) :
    ∃ us fs, b = branch condition extra us fs := by
  cases b with
  | branch d e us fs =>
    cases h
    exact ⟨us, fs, rfl⟩
  | _ => cases h

theorem exists_loop_of_bare {head : LoopHead} {extra : Fields} {body : List Action}
    (h : bare (loop head extra body) = b.bare) : ∃ body', b = loop head extra body' := by
  cases b with
  | loop d e body' =>
    cases h
    exact ⟨body', rfl⟩
  | _ => cases h

theorem ownKeys_eq (hkind : a.kind = b.kind) (htype : a.type = b.type) :
    a.ownKeys = b.ownKeys := by
  cases a with
  | leaf => cases b <;> first | rfl | cases hkind
  | branch => cases b <;> first | rfl | cases hkind
  | loop head =>
    cases b with
    | loop head' =>
      cases head <;> cases head' <;> first | rfl | simp [type, LoopHead.type] at htype
    | _ => cases hkind

/-- The kind, the type and the configuration of a node tell all of its action but the actions in
it. -/
theorem bare_eq_bare (ha : a.KeysApart ∧ a.NoStray) (hb : b.KeysApart ∧ b.NoStray)
    (hkind : a.kind = b.kind) (htype : a.type = b.type) (hconfig : a.config = b.config) :
    a.bare = b.bare := by
  have hothers : a.others = b.others := by
    rw [← ha.1.config_without ha.2, ← hb.1.config_without hb.2, hconfig, ownKeys_eq hkind htype]
  have hhead : a.headFields = b.headFields := by
    rw [ha.1.config_eq ha.2, hb.1.config_eq hb.2, hothers] at hconfig
    exact List.append_cancel_right (List.cons.inj hconfig).2
  cases a with
  | leaf t fields =>
    cases b with
    | leaf u gields =>
      cases htype
      exact congrArg (leaf t) hothers
    | _ => cases hkind
  | branch condition extra ts es =>
    cases b with
    | branch d e us fs =>
      have hc := congrArg (Fields.get? · "condition") hhead
      simp only [headFields, Fields.get?_optionalField, if_true] at hc
      have he : extra = e := hothers
      rw [bare, bare, hc, he]
    | _ => cases hkind
  | loop head extra body =>
    cases b with
    | loop head' e body' =>
      have he : extra = e := hothers
      rw [bare, bare, LoopHead.eq_of_fields htype hhead, he]
    | _ => cases hkind

end Action

namespace Station

/-- Whether the flow goes on at a station itself, and not only at the ends of its branches. -/
def passes (s : Station) : Bool :=
  match s.action? with
  | some (.branch _ _ thenBody elseBody) => thenBody.isEmpty || elseBody.isEmpty
  | _ => true

variable {s : Station} {l : Link}

theorem mem_links_of_onward (h : s.passes) (hl : l ∈ s.onward.links s.number) : l ∈ s.links := by
  unfold links
  split
  · next thenBody elseBody ha =>
    have hp : (thenBody.isEmpty || elseBody.isEmpty) = true := by simpa only [passes, ha] using h
    exact List.mem_append_left _ (by rwa [if_pos hp])
  · exact List.mem_append_left _ hl
  · exact hl
  · exact hl

/-- The links that lead into no branch and no body are those along which the flow goes on. -/
theorem mem_onward_links (hl : l ∈ s.links) (hb : l.branch = .none ∨ l.branch = .loopBack) :
    l ∈ s.onward.links s.number := by
  unfold links at hl
  split at hl
  · simp only [List.mem_append, Action.mem_entryLink] at hl
    rcases hl with hl | ⟨-, rfl⟩ | ⟨-, rfl⟩
    · split at hl
      · exact hl
      · exact absurd hl List.not_mem_nil
    · simp at hb
    · simp at hb
  · simp only [List.mem_append, Action.mem_entryLink] at hl
    rcases hl with hl | ⟨-, rfl⟩
    · exact hl
    · simp at hb
  · exact hl
  · exact hl

end Station

namespace Document

/-- Two documents whose outlines have the same links and the same beginnings of actions. -/
structure Alike (d₁ d₂ : Document) : Prop where
  actions : ∀ s ∈ d₁.stations, ∀ t ∈ d₂.stations, s.number = t.number →
    s.action?.map Action.bare = t.action?.map Action.bare
  links : ∀ l, l ∈ d₁.outline.links ↔ l ∈ d₂.outline.links

namespace Alike

variable {d₁ d₂ : Document} {s t : Station}

theorem symm (h : Alike d₁ d₂) : Alike d₂ d₁ :=
  ⟨fun s hs t ht hn => (h.actions t ht s hs hn.symm).symm, fun l => (h.links l).symm⟩

theorem mem_links (h : Alike d₁ d₂) (hs : s ∈ d₁.stations) (ht : t ∈ d₂.stations)
    (hn : s.number = t.number) {l : Link} (hl : l ∈ s.links) : l ∈ t.links := by
  have hsource := Station.source_of_mem_links hl
  have hmem := (h.links l).mp ((mem_links_of_station hs hsource).mpr hl)
  exact (mem_links_of_station ht (hsource.trans hn)).mp hmem

theorem mem_links_iff (h : Alike d₁ d₂) (hs : s ∈ d₁.stations) (ht : t ∈ d₂.stations)
    (hn : s.number = t.number) {l : Link} : l ∈ s.links ↔ l ∈ t.links :=
  ⟨h.mem_links hs ht hn, h.symm.mem_links ht hs hn.symm⟩

theorem onward_eq_of_ne (h : Alike d₁ d₂) (hs : s ∈ d₁.stations) (ht : t ∈ d₂.stations)
    (hn : s.number = t.number) (hp : s.passes) (hne : s.onward ≠ .stops) : s.onward = t.onward := by
  refine Onward.eq_of_links_subset (n := s.number) hne fun l hl => ?_
  rw [hn]
  exact Station.mem_onward_links (h.mem_links hs ht hn (Station.mem_links_of_onward hp hl))
    ((Onward.mem_links.mp hl).2.imp And.left And.left)

/-- Stations that go on by themselves go on at the same place. -/
theorem onward_eq (h : Alike d₁ d₂) (hs : s ∈ d₁.stations) (ht : t ∈ d₂.stations)
    (hn : s.number = t.number) (hps : s.passes) (hpt : t.passes) : s.onward = t.onward :=
  Onward.eq_of_eq (h.onward_eq_of_ne hs ht hn hps) (h.symm.onward_eq_of_ne ht hs hn.symm hpt)

section

variable {loop₁ loop₂ : Option Nat} {k k' : Onward} {n : Nat} {as bs : List Action}

theorem after_eq_of_ne (h : Alike d₁ d₂) (h₁ : d₁.Has loop₁ k n as) (h₂ : d₂.Has loop₂ k' n bs)
    (has : as ≠ []) (hsize : Action.listSize as = Action.listSize bs)
    (hk : k.Outside n (n + Action.listSize as)) (hne : k ≠ .stops) : k = k' := by
  -- some action of the first list is left along `k`, and the links of the second list lead outside
  -- along `k'` only
  obtain ⟨s, hs, hexit⟩ := Action.exists_listExit loop₁ k n as has
  have hsn : s.number ∈ (Action.listStations loop₂ k' n bs).map Station.number := by
    rw [Action.number_listStations, ← hsize, ← Action.number_listStations loop₁ k]
    exact List.mem_map_of_mem hs
  obtain ⟨t, ht, hnumber⟩ := List.mem_map.mp hsn
  have hinside := Action.inside_listStations loop₂ k' n bs t ht
  refine Onward.eq_of_links_subset (n := s.number) hne fun l hl => ?_
  have hlt := h.mem_links (h₁ s hs) (h₂ t ht) hnumber.symm (hexit l hl)
  rw [← hnumber]
  rcases hinside.link hlt with hl' | ⟨hb, -, hstop⟩ | ⟨hb, -, hstart, -⟩
  · exact hl'
  · rcases (Onward.mem_links.mp hl).2 with ⟨-, rfl⟩ | ⟨hb', -⟩
    · simp only [Onward.Outside] at hk
      omega
    · exact absurd hb' hb
  · rcases (Onward.mem_links.mp hl).2 with ⟨hb', -⟩ | ⟨-, rfl⟩
    · rw [hb] at hb'
      cases hb'
    · simp only [Onward.Outside] at hk
      omega

/-- After lists of actions that stand at the same numbers the flow goes on at the same place. -/
theorem after_eq (h : Alike d₁ d₂) (h₁ : d₁.Has loop₁ k n as) (h₂ : d₂.Has loop₂ k' n bs)
    (has : as ≠ []) (hbs : bs ≠ []) (hsize : Action.listSize as = Action.listSize bs)
    (hk : k.Outside n (n + Action.listSize as)) (hk' : k'.Outside n (n + Action.listSize bs)) :
    k = k' :=
  Onward.eq_of_eq (h.after_eq_of_ne h₁ h₂ has hsize hk)
    (h.symm.after_eq_of_ne h₂ h₁ hbs hsize.symm hk')

end

/-- Lists of fewer than `size` actions are the same where they stand at the same numbers. -/
def DecodesBelow (d₁ d₂ : Document) (size : Nat) : Prop :=
  ∀ {loop₁ loop₂ : Option Nat} {k : Onward} {n : Nat} {as bs : List Action},
    Action.listSize as < size → d₁.Has loop₁ k n as → d₂.Has loop₂ k n bs →
      Action.listSize as = Action.listSize bs → k.Outside n (n + Action.listSize as) → as = bs

section

variable {loop₁ loop₂ : Option Nat} {k : Onward} {n : Nat} {a b : Action} {as bs : List Action}
  {condition : Option Json} {extra : Fields} {ts es us fs body body' : List Action}
  {head : LoopHead}

theorem size_eq (h : Alike d₁ d₂) (h₁ : d₁.Has loop₁ k n (a :: as))
    (h₂ : d₂.Has loop₂ k n (b :: bs))
    (hsize : Action.listSize (a :: as) = Action.listSize (b :: bs))
    (hk : k.Outside n (n + Action.listSize (a :: as)))
    (hpa : Station.passes ⟨n, some a, loop₁, k.before (n + a.size) as⟩)
    (hpb : Station.passes ⟨n, some b, loop₂, k.before (n + b.size) bs⟩) : a.size = b.size :=
  Onward.size_eq_of_before_eq hk hsize (h.onward_eq h₁.station h₂.station rfl hpa hpb)

/-- The same branches of two conditions are empty. -/
theorem branches_eq_nil_iff (h : Alike d₁ d₂)
    (h₁ : d₁.Has loop₁ k n (.branch condition extra ts es :: as))
    (h₂ : d₂.Has loop₂ k n (.branch condition extra us fs :: bs)) :
    (ts = [] ↔ us = []) ∧ (es = [] ↔ fs = []) ∧
      (es ≠ [] → Action.listSize ts = Action.listSize us) := by
  have hlinks := fun l => h.mem_links_iff h₁.station h₂.station rfl (l := l)
  have htrue : ∀ l : Link, ts ≠ [] ∧ l = ⟨n, n + 1, .whenTrue⟩ ↔
      us ≠ [] ∧ l = ⟨n, n + 1, .whenTrue⟩ := by
    intro l
    have hl := hlinks l
    exact Station.whenTrue_links.symm.trans
      ((and_congr_left fun _ => hl).trans Station.whenTrue_links)
  have hfalse : ∀ l : Link, es ≠ [] ∧ l = ⟨n, n + 1 + Action.listSize ts, .whenFalse⟩ ↔
      fs ≠ [] ∧ l = ⟨n, n + 1 + Action.listSize us, .whenFalse⟩ := by
    intro l
    have hl := hlinks l
    exact Station.whenFalse_links.symm.trans
      ((and_congr_left fun _ => hl).trans Station.whenFalse_links)
  refine ⟨?_, ?_, ?_⟩
  · simpa using not_congr (htrue ⟨n, n + 1, .whenTrue⟩)
  · refine not_iff_not.mp ⟨fun hne => ?_, fun hne => ?_⟩
    · exact ((hfalse _).mp ⟨hne, rfl⟩).1
    · exact ((hfalse _).mpr ⟨hne, rfl⟩).1
  · intro hne
    have htarget := congrArg Link.target ((hfalse _).mp ⟨hne, rfl⟩).2
    dsimp only at htarget
    omega

/-- A condition and its first branch have the same sizes in both documents. -/
theorem branch_size_eq (h : Alike d₁ d₂)
    (h₁ : d₁.Has loop₁ k n (.branch condition extra ts es :: as))
    (h₂ : d₂.Has loop₂ k n (.branch condition extra us fs :: bs))
    (hsize : Action.listSize (.branch condition extra ts es :: as) =
      Action.listSize (.branch condition extra us fs :: bs))
    (hk : k.Outside n (n + Action.listSize (.branch condition extra ts es :: as))) :
    (Action.branch condition extra ts es).size = (Action.branch condition extra us fs).size ∧
      Action.listSize ts = Action.listSize us := by
  obtain ⟨hthen, helse, hfirst⟩ := h.branches_eq_nil_iff h₁ h₂
  by_cases hpass : ts = [] ∨ es = []
  · have hp : ∀ {xs ys : List Action} {loop? : Option Nat} {k : Onward}, xs = [] ∨ ys = [] →
        Station.passes ⟨n, some (.branch condition extra xs ys), loop?, k⟩ := by
      intro xs ys _ _ hempty
      simpa [Station.passes] using hempty
    have hs := h.size_eq h₁ h₂ hsize hk (hp hpass) (hp (hpass.imp hthen.mp helse.mp))
    refine ⟨hs, ?_⟩
    by_cases hes : es = []
    · simp only [Action.size, hes, helse.mp hes, Action.listSize] at hs
      omega
    · exact hfirst hes
  · rw [not_or] at hpass
    have hts := hfirst hpass.2
    have hk₁ := hk.before
    have hk₂ := (hsize ▸ hk).before
    have hafter := h.after_eq h₁.inThen h₂.inThen hpass.1 (fun he => hpass.1 (hthen.mpr he)) hts
      (hk₁.mono (by omega) (by simp only [Action.size]; omega))
      (hk₂.mono (by omega) (by simp only [Action.size]; omega))
    exact ⟨Onward.size_eq_of_before_eq hk hsize hafter, hts⟩

theorem loop_eq (h : Alike d₁ d₂)
    (ih : DecodesBelow d₁ d₂ (Action.listSize (.loop head extra body :: as)))
    (h₁ : d₁.Has loop₁ k n (.loop head extra body :: as))
    (h₂ : d₂.Has loop₂ k n (.loop head extra body' :: bs))
    (hsize : Action.listSize (.loop head extra body :: as) =
      Action.listSize (.loop head extra body' :: bs))
    (hk : k.Outside n (n + Action.listSize (.loop head extra body :: as))) : body = body' := by
  have hs := h.size_eq h₁ h₂ hsize hk rfl rfl
  simp only [Action.size] at hs
  refine ih ?_ h₁.inBody h₂.inBody (by omega) (Nat.lt_succ_self n)
  simp only [Action.listSize, Action.size]
  omega

theorem branch_eq (h : Alike d₁ d₂)
    (ih : DecodesBelow d₁ d₂ (Action.listSize (.branch condition extra ts es :: as)))
    (h₁ : d₁.Has loop₁ k n (.branch condition extra ts es :: as))
    (h₂ : d₂.Has loop₂ k n (.branch condition extra us fs :: bs))
    (hsize : Action.listSize (.branch condition extra ts es :: as) =
      Action.listSize (.branch condition extra us fs :: bs))
    (hk : k.Outside n (n + Action.listSize (.branch condition extra ts es :: as))) :
    ts = us ∧ es = fs := by
  obtain ⟨hs, hts⟩ := h.branch_size_eq h₁ h₂ hsize hk
  have hk₁ := hk.before
  have hrest : Action.listSize as = Action.listSize bs := by
    simp only [Action.listSize] at hsize
    omega
  have hbefore := k.before_eq_of_listSize (n + (Action.branch condition extra us fs).size) hrest
  have hthen := h₁.inThen
  have helse := h₁.inElse
  simp only [Action.size, Action.listSize] at hs hk₁ hbefore ih
  rw [hs, hbefore] at hthen helse hk₁
  rw [hts] at helse
  constructor
  · exact ih (by omega) hthen h₂.inThen hts (hk₁.mono (by omega) (by omega))
  · exact ih (by omega) helse h₂.inElse (by omega) (hk₁.mono (by omega) (by omega))

/-- Where lists of actions stand at the same numbers of two documents that are alike, and nothing
of them is left out of sight, they are the same. -/
theorem actions_eq (h : Alike d₁ d₂) (h₁ : d₁.Has loop₁ k n as) (h₂ : d₂.Has loop₂ k n bs)
    (hsize : Action.listSize as = Action.listSize bs)
    (hk : k.Outside n (n + Action.listSize as)) : as = bs := by
  induction hN : Action.listSize as using Nat.strongRecOn
    generalizing loop₁ loop₂ k n as bs with
  | ind N ih =>
    have hbelow : DecodesBelow d₁ d₂ (Action.listSize as) := by
      intro loop₁ loop₂ k n xs ys hlt hx hy hs ho
      exact ih _ (hN ▸ hlt) hx hy hs ho rfl
    cases as with
    | nil =>
      cases bs with
      | nil => rfl
      | cons b bs =>
        have := Action.listSize_pos (List.cons_ne_nil b bs)
        rw [← hsize] at this
        exact absurd this (Nat.lt_irrefl 0)
    | cons a as =>
      cases bs with
      | nil =>
        have := Action.listSize_pos (List.cons_ne_nil a as)
        rw [hsize] at this
        exact absurd this (Nat.lt_irrefl 0)
      | cons b bs =>
        have hbare := Option.some.inj (h.actions _ h₁.station _ h₂.station rfl)
        have hab : a = b := by
          cases a with
          | leaf t fields => exact (Action.eq_leaf_of_bare hbare).symm
          | branch condition extra ts es =>
            obtain ⟨us, fs, rfl⟩ := Action.exists_branch_of_bare hbare
            obtain ⟨rfl, rfl⟩ := h.branch_eq hbelow h₁ h₂ hsize hk
            rfl
          | loop head extra body =>
            obtain ⟨body', rfl⟩ := Action.exists_loop_of_bare hbare
            rw [h.loop_eq hbelow h₁ h₂ hsize hk]
        subst hab
        have := a.size_pos
        simp only [Action.listSize] at hsize hk hbelow
        rw [hbelow (by omega) h₁.tail h₂.tail (by omega)
          (hk.mono (by omega) (by omega))]

end

end Alike

/-- The kinds of the stations of a capability: an entry, and then no entry. -/
theorem kinds_of_stations (n : Nat) (c : Capability) :
    ∃ ks, (c.stations n).map Station.kind = .entry :: ks ∧ ks.length + 1 = c.size ∧
      ∀ k ∈ ks, (k != .entry) = true := by
  refine ⟨(Action.listStations none .stops (n + 1) c.actions).map Station.kind, rfl, ?_, ?_⟩
  · rw [List.length_map, ← List.length_map Station.number, Action.number_listStations,
      List.length_range', Capability.size, Nat.add_comm]
  · intro k hk
    obtain ⟨s, hs, rfl⟩ := List.mem_map.mp hk
    have hne := Action.action?_ne_none_of_mem_listStations hs
    simpa using fun he => hne (Station.action?_eq_none_of_kind he)

/-- The capabilities are told apart by the entries among the kinds of all stations. -/
theorem capabilities_eq_of_kinds {n : Nat} {cs cs' : List Capability}
    (hkinds : (collect Capability.stations n cs).map Station.kind =
      (collect Capability.stations n cs').map Station.kind)
    (h : ∀ p ∈ collect (fun n c => [(n, c)]) n cs, ∀ q ∈ collect (fun n c => [(n, c)]) n cs',
      p.1 = q.1 → p.2.size = q.2.size → p.2 = q.2) : cs = cs' := by
  induction cs generalizing n cs' with
  | nil =>
    cases cs' with
    | nil => rfl
    | cons c' cs' => cases hkinds
  | cons c cs ih =>
    cases cs' with
    | nil => cases hkinds
    | cons c' cs' =>
      obtain ⟨ks, hks, hlen, hne⟩ := kinds_of_stations n c
      obtain ⟨ks', hks', hlen', hne'⟩ := kinds_of_stations n c'
      -- what follows starts with an entry, if there is anything
      have hnext : ∀ m ds, ((collect Capability.stations m ds).map Station.kind).takeWhile
          (· != .entry) = [] := by
        intro m ds
        cases ds <;> rfl
      simp only [collect, List.map_append, hks, hks', List.cons_append, List.cons.injEq,
        true_and] at hkinds
      have htake := congrArg (List.takeWhile (· != .entry)) hkinds
      rw [List.takeWhile_append_of_pos hne, List.takeWhile_append_of_pos hne', hnext, hnext,
        List.append_nil, List.append_nil] at htake
      subst htake
      have hsize : c.size = c'.size := hlen.symm.trans hlen'
      have hc : c = c' := h (n, c) (by simp [collect]) (n, c') (by simp [collect]) rfl hsize
      subst hc
      have hrest := List.append_cancel_left hkinds
      rw [ih hrest fun p hp q hq => h p (by simp [collect, hp]) q (by simp [collect, hq])]

end Document

theorem Capability.eq_of_metadata {c c' : Capability} (hc : c.KeysApart) (hc' : c'.KeysApart)
    (hmetadata : c.metadata = c'.metadata) (hactions : c.actions = c'.actions) : c = c' := by
  obtain ⟨hn, hd, hp, ht⟩ := hc.get?_metadata
  obtain ⟨hn', hd', hp', ht'⟩ := hc'.get?_metadata
  have hextra := hc.metadata_without
  rw [hmetadata] at hn hd hp ht hextra
  have htext : Function.Injective Json.str := fun _ _ h => Json.str.inj h
  have hlist : Function.Injective Json.arr := fun _ _ h => Json.arr.inj h
  have hname := Option.map_injective htext (hn.symm.trans hn')
  have hdescription := Option.map_injective htext (hd.symm.trans hd')
  have hparameters := Option.map_injective hlist (hp.symm.trans hp')
  have htrigger := ht.symm.trans ht'
  have hothers := hextra.symm.trans hc'.metadata_without
  cases c
  cases c'
  exact Capability.mk.injEq .. ▸ ⟨hname, hdescription, hparameters, htrigger, hothers, hactions⟩

/-- Documents that are alike have the same capabilities if the entries are at the same numbers and
hold the same. -/
theorem Document.Alike.capabilities_eq {d₁ d₂ : Document} (h : Alike d₁ d₂)
    (hkinds : d₁.stations.map Station.kind = d₂.stations.map Station.kind)
    (hkeys₁ : ∀ c ∈ d₁.capabilities, c.KeysApart) (hkeys₂ : ∀ c ∈ d₂.capabilities, c.KeysApart)
    (hmetadata : ∀ p ∈ d₁.placed, ∀ q ∈ d₂.placed, p.1 = q.1 → p.2.metadata = q.2.metadata) :
    d₁.capabilities = d₂.capabilities := by
  refine capabilities_eq_of_kinds hkinds ?_
  intro p hp q hq hnumber hsize
  have hactions := h.actions_eq (has_of_placed hp) (hnumber ▸ has_of_placed hq)
    (by simpa [Capability.size] using hsize) trivial
  exact Capability.eq_of_metadata (hkeys₁ _ (d₁.map_placed ▸ List.mem_map_of_mem hp))
    (hkeys₂ _ (d₂.map_placed ▸ List.mem_map_of_mem hq)) (hmetadata p hp q hq hnumber) hactions

/-! What two flows that agree tell of the documents that they were drawn from. -/

/-- What a node holds besides its place and what is shown of it. -/
def Node.core (n : Node) : String × NodeKind × String × Fields :=
  (n.id, n.kind, n.actionType, n.config)

theorem Node.core_eq {g₁ g₂ : Graph} (hcores : g₁.nodes.map Node.core = g₂.nodes.map Node.core)
    (hids : (g₂.nodes.map (·.id)).Nodup) {n m : Node} (hn : n ∈ g₁.nodes) (hm : m ∈ g₂.nodes)
    (hid : n.id = m.id) : n.core = m.core := by
  have hmem : n.core ∈ g₂.nodes.map Node.core := hcores ▸ List.mem_map_of_mem hn
  obtain ⟨m', hm', hcore⟩ := List.mem_map.mp hmem
  have hid' : m'.id = n.id := congrArg Prod.fst hcore
  rw [← hcore, Graph.node_eq hids hm' hm (hid'.trans hid)]

theorem Item.core_of_node {stem : String} {k : Nat} {a : Action} {spot : Spot} {n : Node}
    (h : (Item.action k a spot).node stem = .ok n) :
    n.core = (nodeId stem k, a.kind, a.type, a.config) := by
  obtain ⟨note, -, h⟩ := bind_eq_ok.mp h
  cases h
  rfl

section

variable {stem : String} {d₁ d₂ : Document} {g₁ g₂ : Graph}

theorem mem_links_iff_triple {d : Document} {g : Graph} (h : d.draw stem = .ok g) {l : Link} :
    l ∈ d.outline.links ↔ (nodeId stem l.source, nodeId stem l.target, l.branch) ∈
      g.structuralEdges.map fun e => (e.source, e.target, e.branch) := by
  rw [List.mem_map]
  constructor
  · intro hl
    have he : l.edge stem ∈ g.edges := edges_of_draw h ▸ List.mem_map_of_mem hl
    exact ⟨l.edge stem, List.mem_filter.mpr ⟨he, rfl⟩, rfl⟩
  · intro hx
    obtain ⟨e, he, heq⟩ := hx
    have hmem := (List.mem_filter.mp he).1
    rw [edges_of_draw h, List.mem_map] at hmem
    obtain ⟨l', hl', rfl⟩ := hmem
    obtain ⟨source, target, b⟩ := l
    simp only [Link.edge, Edge.structural, Prod.mk.injEq, nodeId_inj] at heq
    obtain ⟨rfl, rfl, rfl⟩ := heq
    exact hl'

theorem bare_eq_of_cores (h₁ : d₁.draw stem = .ok g₁) (h₂ : d₂.draw stem = .ok g₂)
    (hkeys₁ : d₁.Every Action.KeysApart) (hkeys₂ : d₂.Every Action.KeysApart)
    (hstray₁ : d₁.Every Action.NoStray) (hstray₂ : d₂.Every Action.NoStray)
    (hcores : g₁.nodes.map Node.core = g₂.nodes.map Node.core) {s t : Station}
    (hs : s ∈ d₁.stations) (ht : t ∈ d₂.stations) (hnumber : s.number = t.number) :
    s.action?.map Action.bare = t.action?.map Action.bare := by
  have hids := nodup_ids_of_draw h₂
  have hkind : s.kind = t.kind := by
    obtain ⟨n, hn, hid, hk⟩ := exists_node h₁ hs
    obtain ⟨m, hm, hid', hk'⟩ := exists_node h₂ ht
    have hcore := Node.core_eq hcores hids hn hm (by rw [hid, hid', hnumber])
    rw [← hk, ← hk']
    exact congrArg (fun c => c.2.1) hcore
  cases ha : s.action? with
  | none =>
    have hentry : t.kind = .entry := by rw [← hkind, Station.kind, ha]; rfl
    rw [Station.action?_eq_none_of_kind hentry]
  | some a =>
    cases hb : t.action? with
    | none =>
      have hentry : s.kind = .entry := by rw [hkind, Station.kind, hb]; rfl
      rw [Station.action?_eq_none_of_kind hentry] at ha
      cases ha
    | some b =>
      obtain ⟨n, hn, _, hnode⟩ := exists_action_node h₁ hs ha
      obtain ⟨m, hm, _, hnode'⟩ := exists_action_node h₂ ht hb
      rw [hnumber] at hnode
      have hcore := Item.core_of_node hnode
      have hcore' := Item.core_of_node hnode'
      have hid : n.id = m.id := (congrArg Prod.fst hcore).trans (congrArg Prod.fst hcore').symm
      have hsame := Node.core_eq hcores hids hn hm hid
      rw [hcore, hcore'] at hsame
      simp only [Prod.mk.injEq, true_and] at hsame
      obtain ⟨hk, htype, hconfig⟩ := hsame
      have hparts := And.intro (hkeys₁.of_mem_stations s hs a ha)
        (hstray₁.of_mem_stations s hs a ha)
      have hparts' := And.intro (hkeys₂.of_mem_stations t ht b hb)
        (hstray₂.of_mem_stations t ht b hb)
      exact congrArg some (Action.bare_eq_bare hparts hparts' hk htype hconfig)

theorem metadata_eq_of_cores (h₁ : d₁.draw stem = .ok g₁) (h₂ : d₂.draw stem = .ok g₂)
    (hcores : g₁.nodes.map Node.core = g₂.nodes.map Node.core) {p q : Nat × Capability}
    (hp : p ∈ d₁.placed) (hq : q ∈ d₂.placed) (hnumber : p.1 = q.1) :
    p.2.metadata = q.2.metadata := by
  obtain ⟨n, hn, hnode⟩ := exists_of_forall₂_right (entries_of_draw h₁).flip p hp
  obtain ⟨m, hm, hnode'⟩ := exists_of_forall₂_right (entries_of_draw h₂).flip q hq
  cases hnode
  cases hnode'
  have hcore := Node.core_eq hcores (nodup_ids_of_draw h₂) (List.mem_filter.mp hn).1
    (List.mem_filter.mp hm).1 (congrArg (nodeId stem) hnumber)
  exact congrArg (fun c => c.2.2.2) hcore

theorem kinds_eq_of_cores (h₁ : d₁.draw stem = .ok g₁) (h₂ : d₂.draw stem = .ok g₂)
    (hcores : g₁.nodes.map Node.core = g₂.nodes.map Node.core) :
    d₁.stations.map Station.kind = d₂.stations.map Station.kind := by
  have hkinds : ∀ {d : Document} {g : Graph}, d.draw stem = .ok g →
      d.stations.map Station.kind = (g.nodes.map Node.core).map fun c => c.2.1 := by
    intro d g h
    have hi := congrArg (List.map Prod.snd) (id_kinds_of_draw h)
    rw [List.map_map, List.map_map] at hi
    rw [List.map_map]
    exact hi.symm
  rw [hkinds h₁, hkinds h₂, hcores]

/-- The flows drawn from two documents tell them apart: if their nodes agree in id, kind, type and
configuration and their structural edges in source, target and tag, the documents have the same
capabilities. -/
theorem capabilities_eq_of_draw {v₁ v₂ : Json} (hv₁ : Document.ofJson v₁ = .accepted d₁)
    (hv₂ : Document.ofJson v₂ = .accepted d₂) (hstray₁ : d₁.Every Action.NoStray)
    (hstray₂ : d₂.Every Action.NoStray) (h₁ : d₁.draw stem = .ok g₁) (h₂ : d₂.draw stem = .ok g₂)
    (hnodes : g₁.nodes.map (fun n => (n.id, n.kind, n.actionType, n.config)) =
      g₂.nodes.map fun n => (n.id, n.kind, n.actionType, n.config))
    (hedges : ∀ t, t ∈ g₁.structuralEdges.map (fun e => (e.source, e.target, e.branch)) ↔
      t ∈ g₂.structuralEdges.map fun e => (e.source, e.target, e.branch)) :
    d₁.capabilities = d₂.capabilities := by
  have hparts₁ := (Document.of_ofJson hv₁).2
  have hparts₂ := (Document.of_ofJson hv₂).2
  have halike : d₁.Alike d₂ := by
    refine ⟨fun s hs t ht hn => bare_eq_of_cores h₁ h₂ (fun c hc => (hparts₁ c hc).2)
      (fun c hc => (hparts₂ c hc).2) hstray₁ hstray₂ hnodes hs ht hn, fun l => ?_⟩
    rw [mem_links_iff_triple h₁, mem_links_iff_triple h₂, hedges]
  exact halike.capabilities_eq (kinds_eq_of_cores h₁ h₂ hnodes) (fun c hc => (hparts₁ c hc).1)
    (fun c hc => (hparts₂ c hc).1) fun p hp q hq hn => metadata_eq_of_cores h₁ h₂ hnodes hp hq hn

end

theorem capabilities_eq_of_draw_sample : ∃ d : Document, d.extra ≠ Document.sample.extra ∧
    (∃ g, Document.sample.draw "node" = .ok g ∧ d.draw "node" = .ok g) ∧
      d.capabilities = Document.sample.capabilities := by
  obtain ⟨g, hg⟩ : ∃ g, Document.sample.draw "node" = .ok g := ⟨_, rfl⟩
  have hd : Document.draw "node" ⟨Document.sample.capabilities, [("version", .int 2)]⟩ = .ok g := hg
  have hv : Document.ofJson
      (Document.toJson ⟨Document.sample.capabilities, [("version", .int 2)]⟩) =
        .accepted ⟨Document.sample.capabilities, [("version", .int 2)]⟩ := rfl
  have hsample : Document.ofJson Document.sample.toJson = .accepted Document.sample := rfl
  have hstray : Document.sample.Every Action.NoStray := by
    simp [Document.Every, Document.sample, Action.ListEvery, Action.Every, Action.NoStray,
      Action.others, Action.strayKeys]
  exact ⟨_, by simp [Document.sample], ⟨g, hg, hd⟩,
    capabilities_eq_of_draw hv hsample hstray hstray hd hg rfl fun _ => Iff.rfl⟩

end ScriptFlow
