import ScriptFlow.Proofs.Stations

/-! Where the links of an outline lead. Every link stays inside its capability; it leads forward
unless it goes back to the nearest loop around its source; and every station but an entry is led
to. -/

namespace ScriptFlow

theorem Action.listSize_pos {as : List Action} (h : as ≠ []) : 0 < Action.listSize as := by
  cases as with
  | nil => exact absurd rfl h
  | cons a as =>
    have := a.size_pos
    simp only [Action.listSize]
    omega

namespace Station

/-- The count of what stands at a station, the actions in it included. -/
def size (s : Station) : Nat := s.action?.elim 1 Action.size

theorem size_pos (s : Station) : 0 < s.size := by
  unfold size
  cases s.action? with
  | none => exact Nat.one_pos
  | some a => exact a.size_pos

/-- A station between `n` and `stop` goes on at `k`, at a later station or at a loop before it. -/
structure Inside (k : Onward) (n stop : Nat) (s : Station) : Prop where
  above : n ≤ s.number
  ends : s.number + s.size ≤ stop
  onward : s.onward = k ∨ (∃ m, s.onward = .goesTo m ∧ s.number < m ∧ m < stop) ∨
    ∃ m, s.onward = .backTo m ∧ n ≤ m ∧ m < s.number

theorem Inside.mono {k : Onward} {n n' stop stop' : Nat} {s : Station} (h : s.Inside k n stop)
    (hn : n' ≤ n) (hs : stop ≤ stop') : s.Inside k n' stop' := by
  refine ⟨Nat.le_trans hn h.above, Nat.le_trans h.ends hs, ?_⟩
  rcases h.onward with hk | ⟨m, hm, h1, h2⟩ | ⟨m, hm, h1, h2⟩
  · exact Or.inl hk
  · exact Or.inr (Or.inl ⟨m, hm, h1, by omega⟩)
  · exact Or.inr (Or.inr ⟨m, hm, by omega, h2⟩)

end Station

namespace Action

mutual
theorem inside_stations (loop? : Option Nat) (k : Onward) (n : Nat) : (a : Action) →
    ∀ s ∈ a.stations loop? k n, s.Inside k n (n + a.size)
  | leaf .., s, hs => by
    simp only [stations, List.mem_singleton] at hs
    subst hs
    exact ⟨Nat.le_refl _, Nat.le_refl _, Or.inl rfl⟩
  | branch condition extra thenBody elseBody, s, hs => by
    simp only [stations, List.mem_cons, List.mem_append] at hs
    rcases hs with rfl | hs | hs
    · exact ⟨Nat.le_refl _, Nat.le_refl _, Or.inl rfl⟩
    · have h := inside_listStations loop? k (n + 1) thenBody s hs
      exact h.mono (by omega) (by simp only [size]; omega)
    · have h := inside_listStations loop? k (n + 1 + listSize thenBody) elseBody s hs
      exact h.mono (by omega) (by simp only [size]; omega)
  | loop head extra body, s, hs => by
    simp only [stations, List.mem_cons] at hs
    rcases hs with rfl | hs
    · exact ⟨Nat.le_refl _, Nat.le_refl _, Or.inl rfl⟩
    · have h := inside_listStations (some n) (.backTo n) (n + 1) body s hs
      have ha := h.above
      have he := h.ends
      refine ⟨by omega, by rw [size]; omega, ?_⟩
      rcases h.onward with hk | ⟨m, hm, h1, h2⟩ | ⟨m, hm, h1, h2⟩
      · exact Or.inr (Or.inr ⟨n, hk, Nat.le_refl _, by omega⟩)
      · exact Or.inr (Or.inl ⟨m, hm, h1, by simp only [size]; omega⟩)
      · exact Or.inr (Or.inr ⟨m, hm, by omega, h2⟩)

theorem inside_listStations (loop? : Option Nat) (k : Onward) (n : Nat) : (as : List Action) →
    ∀ s ∈ listStations loop? k n as, s.Inside k n (n + listSize as)
  | [], s, hs => by simp [listStations] at hs
  | a :: as, s, hs => by
    simp only [listStations, List.mem_append] at hs
    rcases hs with hs | hs
    · have h := inside_stations loop? (k.before (n + a.size) as) n a s hs
      cases as with
      | nil => exact h.mono (Nat.le_refl _) (by simp only [listSize]; omega)
      | cons b bs =>
        have hb := listSize_pos (List.cons_ne_nil b bs)
        have hp := s.size_pos
        have he := h.ends
        refine ⟨h.above, by rw [listSize]; omega, ?_⟩
        rcases h.onward with hk | ⟨m, hm, h1, h2⟩ | hm
        · refine Or.inr (Or.inl ⟨n + a.size, hk, by omega, ?_⟩)
          rw [listSize]
          omega
        · refine Or.inr (Or.inl ⟨m, hm, h1, ?_⟩)
          rw [listSize]
          omega
        · exact Or.inr (Or.inr hm)
    · have h := inside_listStations loop? k (n + a.size) as s hs
      exact h.mono (by omega) (by simp only [listSize]; omega)
end

mutual
theorem action?_ne_none_of_mem_stations {loop? : Option Nat} {k : Onward} {n : Nat} {s : Station} :
    {a : Action} → s ∈ a.stations loop? k n → s.action? ≠ none
  | leaf .., hs => by
    simp only [stations, List.mem_singleton] at hs
    simp [hs]
  | branch .., hs => by
    simp only [stations, List.mem_cons, List.mem_append] at hs
    rcases hs with rfl | hs | hs
    · simp
    · exact action?_ne_none_of_mem_listStations hs
    · exact action?_ne_none_of_mem_listStations hs
  | loop .., hs => by
    simp only [stations, List.mem_cons] at hs
    rcases hs with rfl | hs
    · simp
    · exact action?_ne_none_of_mem_listStations hs

theorem action?_ne_none_of_mem_listStations {loop? : Option Nat} {k : Onward} {n : Nat}
    {s : Station} : {as : List Action} → s ∈ listStations loop? k n as → s.action? ≠ none
  | [], hs => by simp [listStations] at hs
  | a :: as, hs => by
    simp only [listStations, List.mem_append] at hs
    rcases hs with hs | hs
    · exact action?_ne_none_of_mem_stations hs
    · exact action?_ne_none_of_mem_listStations hs
end

mutual
/-- With an action, a list of stations holds the stations in that action. -/
theorem stations_subset {loop? : Option Nat} {k : Onward} {n : Nat} {s : Station} {b : Action}
    (hb : s.action? = some b) : {a : Action} → s ∈ a.stations loop? k n →
      ∀ t ∈ b.stations s.loop? s.onward s.number, t ∈ a.stations loop? k n
  | leaf .., hs, t, ht => by
    simp only [stations, List.mem_singleton] at hs
    subst hs
    cases hb
    exact ht
  | branch .., hs, t, ht => by
    simp only [stations, List.mem_cons, List.mem_append] at hs
    rcases hs with rfl | hs | hs
    · cases hb
      exact ht
    · have := listStations_subset hb hs t ht
      simp [stations, this]
    · have := listStations_subset hb hs t ht
      simp [stations, this]
  | loop .., hs, t, ht => by
    simp only [stations, List.mem_cons] at hs
    rcases hs with rfl | hs
    · cases hb
      exact ht
    · have := listStations_subset hb hs t ht
      simp [stations, this]

theorem listStations_subset {loop? : Option Nat} {k : Onward} {n : Nat} {s : Station} {b : Action}
    (hb : s.action? = some b) : {as : List Action} → s ∈ listStations loop? k n as →
      ∀ t ∈ b.stations s.loop? s.onward s.number, t ∈ listStations loop? k n as
  | [], hs, _, _ => by simp [listStations] at hs
  | a :: as, hs, t, ht => by
    simp only [listStations, List.mem_append] at hs ⊢
    rcases hs with hs | hs
    · exact Or.inl (stations_subset hb hs t ht)
    · exact Or.inr (listStations_subset hb hs t ht)
end

theorem eq_of_before_eq_backTo {k : Onward} {n m : Nat} {as : List Action}
    (h : k.before n as = .backTo m) : k = .backTo m := by
  cases as with
  | nil => exact h
  | cons a as => exact absurd h (by simp)

mutual
/-- Where the flow goes back to a loop, that is the nearest loop around. -/
theorem loop?_of_mem_stations {loop? : Option Nat} {k : Onward} {n : Nat}
    (hk : ∀ m, k = .backTo m → loop? = some m) : (a : Action) →
    ∀ s ∈ a.stations loop? k n, ∀ m, s.onward = .backTo m → s.loop? = some m
  | leaf .., s, hs, m, hm => by
    simp only [stations, List.mem_singleton] at hs
    subst hs
    exact hk m hm
  | branch condition extra thenBody elseBody, s, hs, m, hm => by
    simp only [stations, List.mem_cons, List.mem_append] at hs
    rcases hs with rfl | hs | hs
    · exact hk m hm
    · exact loop?_of_mem_listStations hk thenBody s hs m hm
    · exact loop?_of_mem_listStations hk elseBody s hs m hm
  | loop head extra body, s, hs, m, hm => by
    simp only [stations, List.mem_cons] at hs
    rcases hs with rfl | hs
    · exact hk m hm
    · refine loop?_of_mem_listStations ?_ body s hs m hm
      intro m hm
      rw [Onward.backTo.inj hm]

theorem loop?_of_mem_listStations {loop? : Option Nat} {k : Onward} {n : Nat}
    (hk : ∀ m, k = .backTo m → loop? = some m) : (as : List Action) →
    ∀ s ∈ listStations loop? k n as, ∀ m, s.onward = .backTo m → s.loop? = some m
  | [], s, hs, _, _ => by simp [listStations] at hs
  | a :: as, s, hs, m, hm => by
    simp only [listStations, List.mem_append] at hs
    rcases hs with hs | hs
    · exact loop?_of_mem_stations (fun m hm => hk m (eq_of_before_eq_backTo hm)) a s hs m hm
    · exact loop?_of_mem_listStations hk as s hs m hm
end

mutual
/-- Some station of an action goes on at what comes after it. -/
theorem exists_exit (loop? : Option Nat) (k : Onward) (n : Nat) : (a : Action) →
    ∃ s ∈ a.stations loop? k n, ∀ l ∈ k.links s.number, l ∈ s.links
  | leaf t fields => ⟨⟨n, some (leaf t fields), loop?, k⟩, by simp [stations], fun _ h => h⟩
  | branch condition extra thenBody elseBody => by
    by_cases hb : (thenBody.isEmpty || elseBody.isEmpty) = true
    · refine ⟨⟨n, some (branch condition extra thenBody elseBody), loop?, k⟩,
        by simp [stations], ?_⟩
      intro l hl
      simp only [Station.links, hb, if_true]
      exact List.mem_append_left _ hl
    · simp only [Bool.or_eq_true, List.isEmpty_iff, not_or] at hb
      obtain ⟨s, hs, hl⟩ := exists_listExit loop? k (n + 1) thenBody hb.1
      exact ⟨s, by simp [stations, hs], hl⟩
  | loop head extra body => by
    refine ⟨⟨n, some (loop head extra body), loop?, k⟩, by simp [stations], ?_⟩
    intro l hl
    exact List.mem_append_left _ hl

theorem exists_listExit (loop? : Option Nat) (k : Onward) (n : Nat) : (as : List Action) →
    as ≠ [] → ∃ s ∈ listStations loop? k n as, ∀ l ∈ k.links s.number, l ∈ s.links
  | [], h => absurd rfl h
  | [a], _ => by
    obtain ⟨s, hs, hl⟩ := exists_exit loop? k n a
    exact ⟨s, by simpa [listStations] using hs, hl⟩
  | a :: b :: as, _ => by
    obtain ⟨s, hs, hl⟩ := exists_listExit loop? k (n + a.size) (b :: as) (List.cons_ne_nil b as)
    exact ⟨s, by rw [listStations]; exact List.mem_append_right _ hs, hl⟩
end

/-- A link that leads to a number, and not back to it. -/
def LeadsTo (n : Nat) (l : Link) : Prop := l.target = n ∧ l.branch ≠ .loopBack

mutual
theorem led_to_of_mem_stations (loop? : Option Nat) (k : Onward) (n : Nat) : (a : Action) →
    ∀ s ∈ a.stations loop? k n, s.number ≠ n →
      ∃ t ∈ a.stations loop? k n, ∃ l ∈ t.links, LeadsTo s.number l
  | leaf .., s, hs, hne => by
    simp only [stations, List.mem_singleton] at hs
    subst hs
    exact absurd rfl hne
  | branch condition extra thenBody elseBody, s, hs, hne => by
    simp only [stations, List.mem_cons, List.mem_append] at hs
    rcases hs with rfl | hs | hs
    · exact absurd rfl hne
    · have hbody : thenBody ≠ [] := by
        rintro rfl
        simp [listStations] at hs
      by_cases hs1 : s.number = n + 1
      · refine ⟨_, List.mem_cons_self, ⟨n, n + 1, .whenTrue⟩, ?_, hs1.symm, by simp⟩
        simp [Station.links, mem_entryLink, hbody]
      · obtain ⟨t, ht, hl⟩ := led_to_of_mem_listStations loop? k (n + 1) thenBody s hs hs1
        exact ⟨t, by simp [stations, ht], hl⟩
    · have hbody : elseBody ≠ [] := by
        rintro rfl
        simp [listStations] at hs
      by_cases hs1 : s.number = n + 1 + listSize thenBody
      · refine ⟨_, List.mem_cons_self, ⟨n, n + 1 + listSize thenBody, .whenFalse⟩, ?_, hs1.symm,
          by simp⟩
        simp [Station.links, mem_entryLink, hbody]
      · obtain ⟨t, ht, hl⟩ :=
          led_to_of_mem_listStations loop? k (n + 1 + listSize thenBody) elseBody s hs hs1
        exact ⟨t, by simp [stations, ht], hl⟩
  | loop head extra body, s, hs, hne => by
    simp only [stations, List.mem_cons] at hs
    rcases hs with rfl | hs
    · exact absurd rfl hne
    · have hbody : body ≠ [] := by
        rintro rfl
        simp [listStations] at hs
      by_cases hs1 : s.number = n + 1
      · refine ⟨_, List.mem_cons_self, ⟨n, n + 1, .body⟩, ?_, hs1.symm, by simp⟩
        simp [Station.links, mem_entryLink, hbody]
      · obtain ⟨t, ht, hl⟩ :=
          led_to_of_mem_listStations (some n) (.backTo n) (n + 1) body s hs hs1
        exact ⟨t, by simp [stations, ht], hl⟩

theorem led_to_of_mem_listStations (loop? : Option Nat) (k : Onward) (n : Nat) :
    (as : List Action) → ∀ s ∈ listStations loop? k n as, s.number ≠ n →
      ∃ t ∈ listStations loop? k n as, ∃ l ∈ t.links, LeadsTo s.number l
  | [], s, hs, _ => by simp [listStations] at hs
  | a :: as, s, hs, hne => by
    simp only [listStations, List.mem_append] at hs
    rcases hs with hs | hs
    · obtain ⟨t, ht, hl⟩ := led_to_of_mem_stations loop? (k.before (n + a.size) as) n a s hs hne
      exact ⟨t, List.mem_append_left _ ht, hl⟩
    · by_cases hs1 : s.number = n + a.size
      · cases as with
        | nil => simp [listStations] at hs
        | cons b bs =>
          -- the actions after `a` are entered from an exit of `a`
          obtain ⟨t, ht, hl⟩ := exists_exit loop? (.goesTo (n + a.size)) n a
          refine ⟨t, List.mem_append_left _ ht, _, hl ⟨t.number, n + a.size, .none⟩ ?_, hs1.symm,
            by simp⟩
          simp [Onward.links]
      · obtain ⟨t, ht, hl⟩ := led_to_of_mem_listStations loop? k (n + a.size) as s hs hs1
        exact ⟨t, List.mem_append_right _ ht, hl⟩
end

end Action

namespace Station

/-- A link along which the flow goes on leaves all the stations, leads forward, or goes back. -/
theorem Inside.onward_link {k : Onward} {n stop : Nat} {s : Station} (h : s.Inside k n stop)
    {l : Link} (hl : l ∈ s.onward.links s.number) : l ∈ k.links s.number ∨
      (l.branch ≠ .loopBack ∧ s.number < l.target ∧ l.target < stop) ∨
      (l.branch = .loopBack ∧ s.onward = .backTo l.target ∧ n ≤ l.target ∧
        l.target < s.number) := by
  rcases h.onward with hk | ⟨m, hm, h1, h2⟩ | ⟨m, hm, h1, h2⟩
  · exact Or.inl (hk ▸ hl)
  · rw [hm, Onward.links, List.mem_singleton] at hl
    subst hl
    exact Or.inr (Or.inl ⟨by simp, h1, h2⟩)
  · rw [hm, Onward.links, List.mem_singleton] at hl
    subst hl
    exact Or.inr (Or.inr ⟨rfl, hm, h1, h2⟩)

theorem Inside.link {k : Onward} {n stop : Nat} {s : Station} (h : s.Inside k n stop) {l : Link}
    (hl : l ∈ s.links) : l ∈ k.links s.number ∨
      (l.branch ≠ .loopBack ∧ s.number < l.target ∧ l.target < stop) ∨
      (l.branch = .loopBack ∧ s.onward = .backTo l.target ∧ n ≤ l.target ∧
        l.target < s.number) := by
  have hends := h.ends
  unfold links at hl
  split at hl
  · next thenBody elseBody ha =>
    have hsize : s.size = 1 + Action.listSize thenBody + Action.listSize elseBody := by
      simp [size, ha, Action.size]
    simp only [List.mem_append, Action.mem_entryLink] at hl
    rcases hl with hl | ⟨hne, rfl⟩ | ⟨hne, rfl⟩
    · split at hl
      · exact h.onward_link hl
      · exact absurd hl List.not_mem_nil
    · have := Action.listSize_pos hne
      exact Or.inr (Or.inl ⟨by simp, by simp, by dsimp only; omega⟩)
    · have := Action.listSize_pos hne
      exact Or.inr (Or.inl ⟨by simp, by dsimp only; omega, by dsimp only; omega⟩)
  · next body ha =>
    have hsize : s.size = 1 + Action.listSize body := by simp [size, ha, Action.size]
    simp only [List.mem_append, Action.mem_entryLink] at hl
    rcases hl with hl | ⟨hne, rfl⟩
    · exact h.onward_link hl
    · have := Action.listSize_pos hne
      exact Or.inr (Or.inl ⟨by simp, by simp, by dsimp only; omega⟩)
  · exact h.onward_link hl
  · exact h.onward_link hl

end Station

namespace Capability

variable {n : Nat} {c : Capability} {s : Station}

theorem mem_stations : s ∈ c.stations n ↔
    s = ⟨n, none, none, Onward.stops.before (n + 1) c.actions⟩ ∨
      s ∈ Action.listStations none .stops (n + 1) c.actions := by
  rw [stations, List.mem_cons]

theorem inside_stations (h : s ∈ c.stations n) : s.Inside .stops n (n + c.size) := by
  rcases mem_stations.mp h with rfl | h
  · refine ⟨Nat.le_refl _, by simp [Station.size, size], ?_⟩
    cases ha : c.actions with
    | nil => exact Or.inl rfl
    | cons a as =>
      have := a.size_pos
      refine Or.inr (Or.inl ⟨n + 1, rfl, Nat.lt_succ_self n, ?_⟩)
      simp only [size, ha, Action.listSize]
      omega
  · have hi := Action.inside_listStations none .stops (n + 1) c.actions s h
    exact hi.mono (by omega) (by rw [size]; omega)

theorem exists_station {m : Nat} (h1 : n ≤ m) (h2 : m < n + c.size) :
    ∃ s ∈ c.stations n, s.number = m := by
  have hm : m ∈ (c.stations n).map Station.number := by
    rw [number_stations]
    exact List.mem_range'_1.mpr ⟨h1, h2⟩
  simpa [List.mem_map] using hm

theorem action?_eq_none (h : s ∈ c.stations n) : s.action? = none ↔ s.number = n := by
  rcases mem_stations.mp h with rfl | h
  · simp
  · have hi := (Action.inside_listStations none .stops (n + 1) c.actions s h).above
    have hne : s.action? ≠ none := Action.action?_ne_none_of_mem_listStations h
    simp only [hne, false_iff]
    omega

/-- A link of a capability leads forward inside it or back to the nearest loop, which is not its
entry. -/
theorem link_inside (h : s ∈ c.stations n) {l : Link} (hl : l ∈ s.links) :
    (l.branch ≠ .loopBack ∧ s.number < l.target ∧ l.target < n + c.size) ∨
      (l.branch = .loopBack ∧ s.loop? = some l.target ∧ n < l.target ∧ l.target < s.number) := by
  rcases (inside_stations h).link hl with hk | hf | ⟨hb, ho, -, h2⟩
  · exact absurd hk List.not_mem_nil
  · exact Or.inl hf
  · refine Or.inr ⟨hb, ?_⟩
    rcases mem_stations.mp h with rfl | h
    · cases ha : c.actions <;> simp [ha] at ho
    · have hi := Action.inside_listStations none .stops (n + 1) c.actions s h
      have hloop := Action.loop?_of_mem_listStations (by simp) c.actions s h _ ho
      refine ⟨hloop, ?_, h2⟩
      rcases hi.onward with hk | ⟨m, hm, -⟩ | ⟨m, hm, h1, -⟩
      · rw [hk] at ho
        cases ho
      · rw [hm] at ho
        cases ho
      · rw [hm] at ho
        cases ho
        omega

theorem led_to (h : s ∈ c.stations n) (hne : s.action? ≠ none) :
    ∃ t ∈ c.stations n, ∃ l ∈ t.links, Action.LeadsTo s.number l := by
  rcases mem_stations.mp h with rfl | h
  · exact absurd rfl hne
  · by_cases hs : s.number = n + 1
    · refine ⟨_, mem_stations.mpr (Or.inl rfl), ⟨n, n + 1, .none⟩, ?_, hs.symm, by simp⟩
      cases ha : c.actions with
      | nil => simp [ha, Action.listStations] at h
      | cons a as => simp [Station.links, Onward.links]
    · obtain ⟨t, ht, hl⟩ := Action.led_to_of_mem_listStations none .stops (n + 1) c.actions s h hs
      exact ⟨t, mem_stations.mpr (Or.inr ht), hl⟩

end Capability

theorem Capability.stations_subset {n : Nat} {c : Capability} {s : Station} {a : Action}
    (h : s ∈ c.stations n) (ha : s.action? = some a) :
    ∀ t ∈ a.stations s.loop? s.onward s.number, t ∈ c.stations n := by
  intro t ht
  rcases mem_stations.mp h with rfl | h
  · cases ha
  · exact mem_stations.mpr (Or.inr (Action.listStations_subset ha h t ht))

/-- From a loop with a body some station of the body goes back to it. -/
theorem Capability.returned_to {n : Nat} {c : Capability} {s : Station} {head : LoopHead}
    {extra : Fields} {body : List Action} (h : s ∈ c.stations n)
    (ha : s.action? = some (.loop head extra body)) (hbody : body ≠ []) :
    ∃ t ∈ c.stations n, ⟨t.number, s.number, .loopBack⟩ ∈ t.links := by
  obtain ⟨t, ht, hl⟩ :=
    Action.exists_listExit (some s.number) (.backTo s.number) (s.number + 1) body hbody
  refine ⟨t, stations_subset h ha t ?_, hl _ (by simp [Onward.links])⟩
  rw [Action.stations]
  exact List.mem_cons_of_mem _ ht

namespace Station

/-- The station `t` is a loop with `s` in its body. -/
def LoopAround (t s : Station) : Prop :=
  ∃ head extra body, t.action? = some (.loop head extra body) ∧
    s ∈ Action.listStations (some t.number) (.backTo t.number) (t.number + 1) body

end Station

namespace Action

mutual
theorem loopAround_of_mem_stations {loop? : Option Nat} {k : Onward} {n : Nat} : (a : Action) →
    ∀ s ∈ a.stations loop? k n, s.loop? = loop? ∨
      ∃ t ∈ a.stations loop? k n, s.loop? = some t.number ∧ t.LoopAround s
  | leaf .., s, hs => by
    simp only [stations, List.mem_singleton] at hs
    exact Or.inl (by rw [hs])
  | branch condition extra thenBody elseBody, s, hs => by
    simp only [stations, List.mem_cons, List.mem_append] at hs
    rcases hs with rfl | hs | hs
    · exact Or.inl rfl
    · rcases loopAround_of_mem_listStations thenBody s hs with h | ⟨t, ht, h⟩
      · exact Or.inl h
      · exact Or.inr ⟨t, by simp [stations, ht], h⟩
    · rcases loopAround_of_mem_listStations elseBody s hs with h | ⟨t, ht, h⟩
      · exact Or.inl h
      · exact Or.inr ⟨t, by simp [stations, ht], h⟩
  | loop head extra body, s, hs => by
    simp only [stations, List.mem_cons] at hs
    rcases hs with rfl | hs
    · exact Or.inl rfl
    · rcases loopAround_of_mem_listStations body s hs with h | ⟨t, ht, h⟩
      · -- the loop itself is the nearest one
        exact Or.inr ⟨_, List.mem_cons_self, h, head, extra, body, rfl, hs⟩
      · exact Or.inr ⟨t, by simp [stations, ht], h⟩

theorem loopAround_of_mem_listStations {loop? : Option Nat} {k : Onward} {n : Nat} :
    (as : List Action) → ∀ s ∈ listStations loop? k n as, s.loop? = loop? ∨
      ∃ t ∈ listStations loop? k n as, s.loop? = some t.number ∧ t.LoopAround s
  | [], s, hs => by simp [listStations] at hs
  | a :: as, s, hs => by
    simp only [listStations, List.mem_append] at hs
    rcases hs with hs | hs
    · rcases loopAround_of_mem_stations a s hs with h | ⟨t, ht, h⟩
      · exact Or.inl h
      · exact Or.inr ⟨t, List.mem_append_left _ ht, h⟩
    · rcases loopAround_of_mem_listStations as s hs with h | ⟨t, ht, h⟩
      · exact Or.inl h
      · exact Or.inr ⟨t, List.mem_append_right _ ht, h⟩
end

end Action

/-- A loop around a station begins no later than what the station records. -/
theorem Station.LoopAround.le {s t : Station} (h : t.LoopAround s) {m : Nat}
    (hm : s.loop? = some m) : t.number ≤ m := by
  obtain ⟨head, extra, body, -, hs⟩ := h
  rcases Action.loopAround_of_mem_listStations body s hs with h | ⟨u, hu, h, -⟩
  · rw [hm] at h
    exact Nat.le_of_eq (Option.some.inj h).symm
  · have hi := (Action.inside_listStations _ _ _ body u hu).above
    rw [hm] at h
    have := Option.some.inj h
    omega

/-- What a station records as its loop is around it, and any other loop around it begins before. -/
theorem Document.nearest_loop {d : Document} {s : Station} (hs : s ∈ d.stations) {m : Nat}
    (hm : s.loop? = some m) : ∃ t ∈ d.stations, t.number = m ∧ t.LoopAround s ∧
      ∀ u ∈ d.stations, u.LoopAround s → u.number ≤ t.number := by
  obtain ⟨p, hp, hsp⟩ := mem_stations.mp hs
  rcases Capability.mem_stations.mp hsp with rfl | hsl
  · cases hm
  · rcases Action.loopAround_of_mem_listStations p.2.actions s hsl with h | ⟨t, ht, h, hl⟩
    · rw [hm] at h
      cases h
    · have hmt : m = t.number := Option.some.inj (hm.symm.trans h)
      have htd : t ∈ d.stations :=
        mem_stations.mpr ⟨p, hp, Capability.mem_stations.mpr (Or.inr ht)⟩
      exact ⟨t, htd, hmt.symm, hl, fun u _ hu => hmt ▸ hu.le hm⟩

/-- A link of a capability leads to another of its stations. -/
theorem Capability.exists_target {n : Nat} {c : Capability} {s : Station}
    (hs : s ∈ c.stations n) {l : Link} (hl : l ∈ s.links) :
    ∃ t ∈ c.stations n, t.number = l.target ∧ n < t.number ∧ t.number ≠ s.number := by
  have hi := Capability.inside_stations hs
  have h1 := hi.above
  have h2 := hi.ends
  have h3 := s.size_pos
  have hin : n < l.target ∧ l.target < n + c.size ∧ l.target ≠ s.number := by
    rcases Capability.link_inside hs hl with ⟨-, h4, h5⟩ | ⟨-, -, h4, h5⟩ <;> omega
  obtain ⟨t, ht, hnumber⟩ := Capability.exists_station (Nat.le_of_lt hin.1) hin.2.1
  exact ⟨t, ht, hnumber, hnumber ▸ hin.1, hnumber ▸ hin.2.2⟩

end ScriptFlow
