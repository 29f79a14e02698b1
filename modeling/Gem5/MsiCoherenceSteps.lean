/-
# The coherence invariant and the steps of an L1

Processor requests, replacements, data, and the requests in the input buffers:
each transition of an L1 that leaves the directory alone is a case of `L1.Tracks`.
-/
import Gem5.MsiCoherence

open List

variable {n : ℕ} {β : Type}

/-- The head of a list. -/
theorem eq_cons_of_getElem?_zero {α : Type} {l : List α} {a : α} (h : l[0]? = some a) :
    ∃ rest, l = a :: rest := by
  rwa [← head?_eq_getElem?, head?_eq_some_iff] at h

/-! ## What the buffers hold -/

section Buffers

variable {c : Fin n} {l l' : L1 n β} {m : RequestMsg n}

/-- An own request on the bus is a GETM, or the state is one that waits for it. -/
theorem L1.Tallied.own_cases (h : l.Tallied False c) (hm : m ∈ l.requestToCache)
    (hc : m.requestor = c) : m.type = .GETM ∨ m.type = .UPG ∧ l.state.tally.upg = 1 ∨
      m.type.isGets = true ∧ l.state.tally.gets = 1 := by
  -- the message counts among those of its type, of which the state has at most one
  have hpos : ∀ p : CoherenceRequestType → Bool, p m.type = true → 0 < l.undelivered c p :=
    fun p hp => Nat.lt_of_lt_of_le
      ((countP_pos_iff (p := fun m : RequestMsg n => decide (m.requestor = c) && p m.type)).mpr
        ⟨m, hm, by simp [hc, hp]⟩) (Nat.le_add_left _ _)
  have hle : ∀ s : CacheState, s.tally.upg ≤ 1 ∧ s.tally.gets ≤ 1 := by decide
  cases ht : m.type with
  | GETM => exact .inl rfl
  | UPG =>
    have := hpos (· == .UPG) (by rw [ht]; rfl)
    rw [h.counts.upg] at this
    exact .inr (.inl ⟨rfl, Nat.le_antisymm (hle _).1 this⟩)
  | GETS | GETI =>
    have := hpos CoherenceRequestType.isGets (by rw [ht]; rfl)
    rw [h.counts.gets] at this
    exact .inr (.inr ⟨rfl, Nat.le_antisymm (hle _).2 this⟩)
  | PUTM => exact absurd ht (h.typed.delivered m hm)

theorem L1.Orderly.stalled_eq_nil (h : l.Orderly c) (hs : ¬ l.state.holds) : l.stalled = [] :=
  h.recorded.resolve_right fun hr => hs hr.1

/-- Waking the line hands out all stalled requests. -/
theorem L1.Orderly.woken_eq (h : l.Orderly c) : l.woken = l.stalled ∧ l.orphans = [] := by
  unfold L1.woken L1.orphans
  rcases h.recorded with hst | ⟨-, hw⟩
  · simp [hst]
  · simp [hw]

theorem L1.Orderly.woken_eq_nil (h : l.Orderly c) (hs : ¬ l.state.holds) :
    l.woken = [] ∧ l.orphans = [] := by
  rw [h.woken_eq.1, h.stalled_eq_nil hs]
  exact ⟨rfl, h.woken_eq.2⟩

/-- A side packet is a GETM. -/
theorem L1.Orderly.asks_of_hasSide (h : l.Orderly c) (hs : l.HasSide) :
    l.Asks ∧ (l.state = .IM_D ∨ l.state = .IM_DL) := by
  obtain ⟨q, hq, hside⟩ := hs
  have ha := h.asked q hq
  have htab : ∀ (s : CacheState) (t : CoherenceRequestType), s.asks ⟨t, true⟩ = true →
      t.wantsData = true ∧ (s = .IM_D ∨ s = .IM_DL) := by
    intro s t
    cases t <;> revert s <;> decide
  obtain ⟨t, side⟩ := q
  obtain rfl : side = true := hside
  exact ⟨⟨_, hq, (htab _ _ ha).1⟩, (htab _ _ ha).2⟩

/-- Only the states before a data request is ordered have one queued. -/
theorem L1.Orderly.not_asks (h : l.Orderly c)
    (hs : l.state.owns = false ∧ l.state ≠ .IS_AD ∧ l.state ≠ .IM_AD ∨ l.state.tally.data = 0) :
    ¬ l.Asks := by
  rintro ⟨q, hq, hw⟩
  have ha := h.asked q hq
  obtain ⟨t, side⟩ := q
  revert hs ha hw
  generalize l.state = s
  cases t <;> cases side <;> revert s <;> decide

/-- Without a queued data request the queue fits every state. -/
theorem L1.Orderly.asked_of_not_asks (h : l.Orderly c) (ha : ¬ l.Asks) (s : CacheState) :
    ∀ q ∈ l.requestFromCache, s.asks q = true := by
  intro q hq
  have h1 := h.asked q hq
  have h2 : q.type.wantsData = false := Bool.eq_false_iff.mpr fun hw => ha ⟨q, hq, hw⟩
  obtain ⟨t, side⟩ := q
  revert h1 h2
  generalize l.state = s'
  cases t <;> cases side <;> simp [CacheState.asks, CoherenceRequestType.wantsData]

theorem L1.asks_congr (hq : l'.requestFromCache = l.requestFromCache) : l'.Asks ↔ l.Asks := by
  unfold L1.Asks
  rw [hq]

theorem L1.hasSide_congr (hq : l'.requestFromCache = l.requestFromCache) :
    l'.HasSide ↔ l.HasSide := by
  unfold L1.HasSide
  rw [hq]

end Buffers

/-! ## Changes of state -/

section Changes

variable {c : Fin n} {calm : Prop} {l l' : L1 n β}

/-- Nothing that matters changes. -/
theorem L1.Tracks.of_eq (ho : l.Orderly c) (hs : l'.state = l.state)
    (hq : l'.requestFromCache = l.requestFromCache)
    (hd : l'.requestToCache = l.requestToCache) (hst : l'.stalled = l.stalled)
    (hw : l'.waiting = l.waiting ∨ l.stalled = [])
    (hWB : ∀ m ∈ l'.requestToCacheWB, m ∈ l.requestToCacheWB)
    (hWB' : ∀ m ∈ l.requestToCacheWB, m.requestor = c → m ∈ l'.requestToCacheWB) :
    l.Tracks c calm l' := by
  have hmode : l'.mode c = l.mode c := by rw [L1.mode, L1.mode, hs, hd]
  have hasks := L1.asks_congr hq
  have hside := L1.hasSide_congr hq
  exact {
    orderly := {
      recorded := by
        rw [hst, hs]
        rcases hw with hw | hw
        · rw [hw]
          exact ho.recorded
        · exact .inl hw
      asked := by
        rw [hq, hs]
        exact ho.asked
      side := by
        rw [hs, hside, hd]
        exact ho.side
      own := by
        intro m hm hc
        rw [hd] at hm
        obtain ⟨h1, h2, h3, h4⟩ := ho.own m hm hc
        refine ⟨by rwa [hd, hs], by rwa [hs], fun hw => hasks.not.mpr (h3 hw), ?_⟩
        rw [eq_nil_iff_forall_not_mem]
        intro m' hm'
        have := hWB m' hm'
        rw [h4] at this
        cases this }
    asks := hasks.mpr
    owns := fun _ h => hmode ▸ h
    shares := fun _ h => hmode ▸ h
    keeps := fun h ha => ⟨hmode ▸ h, hasks.not.mpr ha⟩
    heeds := fun _ => .inr fun _ _ h => hs ▸ h
    unseen := fun m hm _ _ => by rwa [L1.unseen, hd, hst]
    awaits := .inl fun _ h => hmode ▸ h
    lost := by
      unfold L1.Lost
      rw [hside, hs, hd]
    own := fun m hm _ => ⟨hd ▸ hm, fun _ h => hs ▸ h⟩
    buffered := fun h => .inl (hd ▸ h)
    deliveredWB := hWB
    releases := hWB' }

/-- The state changes and at most an UPG is queued. -/
theorem L1.Tracks.of_state (s s' : CacheState) (ho : l.Orderly c) (hty : L1.Typed c l)
    (hs : l.state = s) (hs' : l'.state = s') (htab : s.Evolves s') (hna : ¬ l.Asks)
    (hin : s.Inert c l.requestToCache) (hin' : s'.Inert c l.requestToCache)
    (hlost : ∀ m ∈ l.requestToCache, m.requestor = c → s.lost = false ∧ s'.lost = false)
    (hq : l'.requestFromCache = l.requestFromCache ∨
      l'.requestFromCache = l.requestFromCache ++ [⟨.UPG, false⟩])
    (hd : l'.requestToCache = l.requestToCache) (hst : l'.stalled = l.stalled)
    (hrec : l.stalled = [] ∨ s'.holds ∧ l'.waiting = some .requestToCache)
    (hWB : ∀ m ∈ l'.requestToCacheWB, m ∈ l.requestToCacheWB)
    (hWB' : ∀ m ∈ l.requestToCacheWB, m.requestor = c → m ∈ l'.requestToCacheWB)
    (ha : (∀ t, s.awaits t = true → s'.awaits t = true) ∨ l.responseToCache ≠ []) :
    l.Tracks c calm l' := by
  subst hs hs'
  obtain ⟨hl, hl', hkeeps, hheeds⟩ := htab
  have hmode : (l.mode c).Keeps (l'.mode c) := by
    rw [L1.mode, L1.mode, hd]
    exact hkeeps.foldl hl hl' hin hin' hty.delivered
  have hmem : ∀ q ∈ l'.requestFromCache, q ∈ l.requestFromCache ∨ q = ⟨.UPG, false⟩ := by
    rcases hq with hq | hq <;> rw [hq] <;> simp +contextual
  have hna' : ¬ l'.Asks := by
    rintro ⟨q, hmem', hw⟩
    rcases hmem q hmem' with hold | rfl
    · exact hna ⟨q, hold, hw⟩
    · cases hw
  have hno : ¬ l'.HasSide := by
    rintro ⟨q, hmem', hw⟩
    rcases hmem q hmem' with hold | rfl
    · exact hna (ho.asks_of_hasSide ⟨q, hold, hw⟩).1
    · cases hw
  exact {
    orderly := {
      recorded := by rwa [hst]
      asked := by
        intro q hq
        rcases hmem q hq with hold | rfl
        · exact ho.asked_of_not_asks hna _ q hold
        · rfl
      side := fun _ h => absurd h hno
      own := by
        intro m hm hc
        rw [hd] at hm
        obtain ⟨h1, h2, h3, h4⟩ := ho.own m hm hc
        have hown : m.type = .GETM → l'.state.owns = true := by
          intro ht
          rcases h2 ht with h | h | h
          · exact absurd (hin m hm hc) (by rw [h, ht]; decide)
          · exact absurd (hin m hm hc) (by rw [h, ht]; decide)
          · rwa [hkeeps.1]
        refine ⟨?_, fun ht => .inr (.inr (hown ht)), fun _ => hna', ?_⟩
        · rw [hd]
          exact h1.imp_right fun h => ⟨h.1, hown h.1⟩
        · rw [eq_nil_iff_forall_not_mem]
          intro m' hm'
          have := hWB m' hm'
          rw [h4] at this
          cases this }
    asks := fun h => absurd h hna
    owns := fun _ h => hmode.1 ▸ h
    shares := fun _ => hmode.2
    keeps := fun h _ => ⟨hmode.1 ▸ h, hna'⟩
    heeds := fun _ => .inr hheeds
    unseen := fun m hm _ _ => by rwa [L1.unseen, hd, hst]
    awaits := ha.imp_left fun ha t ht => by
      rw [L1.mode, (hin.foldl hl).2] at ht
      rw [L1.mode, hd, (hin'.foldl hl').2]
      exact ha t ht
    lost := by
      refine iff_of_false ?_ ?_
      · rintro (h | ⟨h, m, hm, hc, -⟩)
        · exact hno h
        · rw [(hlost m (hd ▸ hm) hc).2] at h
          cases h
      · rintro (h | ⟨h, m, hm, hc, -⟩)
        · exact hna (ho.asks_of_hasSide h).1
        · rw [(hlost m hm hc).1] at h
          cases h
    own := fun m hm _ => ⟨hd ▸ hm, fun _ => hkeeps.2⟩
    buffered := fun h => .inl (hd ▸ h)
    deliveredWB := hWB
    releases := hWB' }

/-- A line in `I` has no own request on the bus. -/
theorem L1.Orderly.own_of_I (ho : l.Orderly c) (h : l.Tallied False c) (hs : l.state = .I)
    {m : RequestMsg n} (hm : m ∈ l.requestToCache) : m.requestor ≠ c := by
  intro hc
  rcases h.own_cases hm hc with ht | ⟨-, ht⟩ | ⟨-, ht⟩
  · rcases (ho.own m hm hc).getm ht with h | h | h <;> rw [hs] at h <;> cases h
  · rw [hs] at ht
    cases ht
  · rw [hs] at ht
    cases ht

/-- A miss: the data request `q` is queued. -/
theorem L1.Tracks.of_miss (s' : CacheState) (q : QueuedRequest) (ho : l.Orderly c)
    (h : l.Tallied False c) (hs : l.state = .I) (hs' : l'.state = s')
    (htab : s'.asks q = true ∧ s'.lost = false ∧ q.type.wantsData = true ∧ q.side = false)
    (hq : l'.requestFromCache = l.requestFromCache ++ [q])
    (hd : l'.requestToCache = l.requestToCache) (hst : l'.stalled = l.stalled)
    (hWB : l'.requestToCacheWB = l.requestToCacheWB) : l.Tracks c calm l' := by
  subst hs'
  obtain ⟨hasked, hlost, hw, hside⟩ := htab
  have hna : ¬ l.Asks := ho.not_asks (by rw [hs]; decide)
  have hmem : ∀ q' ∈ l'.requestFromCache, q' ∈ l.requestFromCache ∨ q' = q := by
    rw [hq]
    simp
  have hasks : l'.Asks := ⟨q, by rw [hq]; simp, hw⟩
  have hno : ¬ l.HasSide := fun h => hna (ho.asks_of_hasSide h).1
  have hno' : ¬ l'.HasSide := by
    rintro ⟨q', hq', hs'⟩
    rcases hmem q' hq' with hold | rfl
    · exact hno ⟨q', hold, hs'⟩
    · rw [hside] at hs'
      cases hs'
  have hother : ∀ m ∈ l'.requestToCache, m.requestor ≠ c := by
    rw [hd]
    exact fun m => ho.own_of_I h hs
  have hinert : l.state.Inert c l.requestToCache :=
    fun m hm hc => absurd hc (ho.own_of_I h hs hm)
  have hmode := hinert.foldl h.ok.live
  exact {
    orderly := {
      recorded := .inl (hst.trans (ho.stalled_eq_nil (by rw [hs]; decide)))
      asked := by
        intro q' hq'
        rcases hmem q' hq' with hold | rfl
        · exact ho.asked_of_not_asks hna _ q' hold
        · exact hasked
      side := fun _ h => absurd h hno'
      own := fun m hm hc => absurd hc (hother m hm) }
    asks := fun _ => hasks
    owns := fun h => absurd hasks h
    shares := fun h => absurd hasks h
    keeps := by
      intro hown
      rw [L1.mode, hmode.1, hs] at hown
      cases hown
    heeds := fun h => absurd hasks h
    unseen := fun m hm _ _ => by rwa [L1.unseen, hd, hst]
    awaits := by
      refine .inl fun t ht => ?_
      rw [L1.mode, hmode.2, hs] at ht
      cases t <;> cases ht
    lost := by
      refine iff_of_false ?_ ?_
      · rintro (h | ⟨h, -⟩)
        · exact hno' h
        · rw [hlost] at h
          cases h
      · rintro (h | ⟨h, -⟩)
        · exact hno h
        · rw [hs] at h
          cases h
    own := fun m hm hc => absurd hc (hother m hm)
    buffered := fun h => .inl (hd ▸ h)
    deliveredWB := fun m hm => hWB ▸ hm
    releases := fun m hm _ => hWB ▸ hm }

/-- A line that is held and has its stalled requests handed out again. -/
theorem L1.Tracks.of_wake (ho : l.Orderly c) (h : l.Tallied False c) (hs : l.state.holds)
    (hs' : l'.state = l.state ∨ l.state = .M_L ∧ l'.state = .M)
    (hq : l'.requestFromCache = l.requestFromCache)
    (hd : l'.requestToCache = l.requestToCache ++ l.stalled) (hst : l'.stalled = [])
    (hWB : l'.requestToCacheWB = l.requestToCacheWB) : l.Tracks c calm l' := by
  have hown : l.state.owns = true ∧ l.state.tally.upg = 0 ∧ l.state.tally.gets = 0 ∧
      l.state.lost = false := by
    rcases hs with hs | hs <;> rw [hs] <;> decide
  have hown' : l'.state.owns = true ∧ l'.state.lost = false ∧ l'.state.live = true := by
    rcases hs' with hs' | ⟨-, hs'⟩
    · rw [hs']
      exact ⟨hown.1, hown.2.2.2, h.ok.live⟩
    · rw [hs']
      decide
  have hmode : l.mode c = l.state := L1.mode_of_holds hs
  have hmode' : (l'.mode c).owns = true := CacheState.owns_foldl hown'.2.2 hown'.1
  have hasks := L1.asks_congr hq
  -- what is woken is not the L1's own
  have hmem : ∀ m ∈ l'.requestToCache, m.requestor = c → m ∈ l.requestToCache := by
    intro m hm hc
    rw [hd] at hm
    exact (mem_append.mp hm).resolve_right fun hm => (h.typed.stalled m hm).1 hc
  have hgetm : ∀ m ∈ l.requestToCache, m.requestor = c → m.type = .GETM := by
    intro m hm hc
    rcases h.own_cases hm hc with ht | ⟨-, ht⟩ | ⟨-, ht⟩
    · exact ht
    · rw [hown.2.1] at ht
      cases ht
    · rw [hown.2.2.1] at ht
      cases ht
  exact {
    orderly := {
      recorded := .inl hst
      asked := by
        rw [hq]
        rcases hs' with hs' | ⟨hs, hs'⟩
        · rw [hs']
          exact ho.asked
        · exact ho.asked_of_not_asks (ho.not_asks (by rw [hs]; decide)) _
      side := by
        intro hD
        rcases hs' with hs' | ⟨-, hs'⟩
        · rw [← hs', hD] at hs
          exact absurd hs (by decide)
        · rw [hD] at hs'
          cases hs'
      own := by
        intro m hm hc
        have hm := hmem m hm hc
        obtain ⟨-, -, h3, h4⟩ := ho.own m hm hc
        exact ⟨.inr ⟨hgetm m hm hc, hown'.1⟩, fun _ => .inr (.inr hown'.1),
          fun hw => hasks.not.mpr (h3 hw), hWB ▸ h4⟩ }
    asks := hasks.mpr
    owns := fun _ _ => hmode ▸ hown.1
    shares := by
      intro _ hsh
      rw [CacheState.not_shares_of_owns hmode'] at hsh
      cases hsh
    keeps := fun _ ha => ⟨hmode', hasks.not.mpr ha⟩
    heeds := fun _ => .inr fun _ _ _ => .inl hs
    unseen := by
      intro m hm _ _
      rw [L1.unseen, hst, hd, nil_append, mem_append, or_comm]
      exact mem_append.mp hm
    awaits := by
      rw [hmode]
      refine .inl fun t ht => ?_
      rcases hs' with hs' | ⟨hs, -⟩
      · rw [L1.mode_of_holds (hs' ▸ hs), hs']
        exact ht
      · rw [hs] at ht
        cases t <;> cases ht
    lost := by
      unfold L1.Lost
      rw [L1.hasSide_congr hq, hown.2.2.2, hown'.2.1]
      simp
    own := fun m hm hc => ⟨hmem m hm hc, fun ht => by rw [hgetm m (hmem m hm hc) hc] at ht; cases ht⟩
    buffered := fun _ => .inr hs
    deliveredWB := fun m hm => hWB ▸ hm
    releases := fun m hm _ => hWB ▸ hm }

end Changes

/-! ## Transitions -/

/-- What seeing another core's request does to an L1. -/
structure L1.Snooped (l : L1 n β) (i : ℕ) (m : RequestMsg n) (l' : L1 n β) : Prop where
  state : l'.state = msiSnooped l.state m.type
  requestToCache : l'.requestToCache = l.requestToCache.eraseIdx i
  stalled : l'.stalled = l.stalled ++ if l.state.holds then [m] else []
  waiting : l.state.holds → l'.waiting = some .requestToCache
  requestFromCache : l'.requestFromCache = l.requestFromCache
  requestToCacheWB : l'.requestToCacheWB = l.requestToCacheWB
  responseToCache : l'.responseToCache = l.responseToCache
  dataBlk : l'.dataBlk = l.dataBlk
  tbe : l'.tbe = l.tbe
  pos : l'.pos = l.pos

theorem Msi.Snoop.snooped {l : L1 n β} {i : ℕ} {m : RequestMsg n} {x : Firing n β}
    (hx : Msi.Snoop l i m x) : L1.Snooped l i m x.line := by
  cases hx with
  | stall hs hx =>
    subst hx
    exact ⟨(msiSnooped_holds hs).symm, rfl, by rw [if_pos hs], fun _ => rfl, rfl, rfl, rfl, rfl, rfl,
      rfl⟩
  | writeBack hs hx =>
    subst hx
    have hh : ¬ l.state.holds := by rw [hs]; decide
    exact ⟨by rw [hs], rfl, by rw [if_neg hh, append_nil], fun h => absurd h hh, rfl, rfl, rfl, rfl,
      rfl, rfl⟩
  | invalidate hs ht hx =>
    subst hx
    have hh : ¬ l.state.holds := by rw [hs]; decide
    have hI : CacheState.I = msiSnooped l.state m.type := by
      rw [hs]
      rcases ht with ht | ht <;> rw [ht] <;> rfl
    exact ⟨hI, rfl, by rw [if_neg hh, append_nil], fun h => absurd h hh, rfl, rfl, rfl, rfl, rfl,
      rfl⟩
  | pop hs hM hS hx =>
    subst hx
    exact ⟨rfl, rfl, by rw [if_neg hs, append_nil], fun h => absurd h hs, rfl, rfl, rfl, rfl, rfl,
      rfl⟩

section Transitions

variable {c : Fin n} {calm : Prop} {l l' : L1 n β} {x : Firing n β} {i : ℕ}

theorem CacheState.inert_of_forall {s : CacheState} {ms : List (RequestMsg n)}
    (h : ∀ t, msiOwn s t = s) : s.Inert c ms := fun m _ _ => h m.type

theorem Msi.Processor.tracks [Inhabited β] {r : SequencerRequest β} (hx : Msi.Processor c l r x)
    (ho : l.Orderly c) (h : l.Tallied False c) : l.Tracks c calm x.line := by
  have hna : l.state.tally.data = 0 → ¬ l.Asks := fun hs => ho.not_asks (.inr hs)
  have hnil : ¬ l.state.holds → l.stalled = [] := ho.stalled_eq_nil
  -- an UPG is queued only if none is on the bus
  have hupg : l.state = .S → ∀ s', s' = .SM_W ∨ s' = .SM_WL →
      CacheState.Inert c s' l.requestToCache := by
    intro hs s' hs' m hm hc
    have ht : m.type = .GETM := by
      rcases h.own_cases hm hc with ht | ⟨-, ht⟩ | ⟨-, ht⟩
      · exact ht
      · rw [hs] at ht
        cases ht
      · rw [hs] at ht
        cases ht
    rw [ht]
    rcases hs' with rfl | rfl <;> rfl
  cases hx with
  | stall hs hx =>
    subst hx
    refine .of_eq ho rfl rfl rfl rfl (.inr (hnil ?_)) (fun _ => id) fun _ hm _ => hm
    rcases hs with hs | hs <;> rw [hs] <;> decide
  | readHit hs hk hx | writeHit hs hk hx =>
    subst hx
    exact .of_eq ho rfl rfl rfl rfl (.inl rfl) (fun _ => id) fun _ hm _ => hm
  | readMiss t hs hk ht hx =>
    subst hx
    refine .of_miss .IS_AD ⟨t, false⟩ ho h hs rfl ?_ rfl rfl rfl rfl
    rcases ht with rfl | rfl <;> decide
  | writeMiss hs hk hx =>
    subst hx
    exact .of_miss .IM_AD ⟨.GETM, false⟩ ho h hs rfl (by decide) rfl rfl rfl rfl
  | lockedMiss hs hk hx =>
    subst hx
    exact .of_miss .IM_DL ⟨.GETM, false⟩ ho h hs rfl (by decide) rfl rfl rfl rfl
  | upgrade hs hk hx =>
    subst hx
    exact .of_state .S .SM_W ho h.typed hs rfl (by decide +kernel) (hna (by rw [hs]; rfl))
      (CacheState.inert_of_forall (by decide)) (hupg hs _ (.inl rfl)) (fun _ _ _ => ⟨rfl, rfl⟩)
      (.inr rfl) rfl rfl (.inl (hnil (by rw [hs]; decide))) (fun _ => id) (fun _ hm _ => hm)
      (.inl (by decide))
  | lockedUpgrade hs hk hx =>
    subst hx
    exact .of_state .S .SM_WL ho h.typed hs rfl (by decide +kernel) (hna (by rw [hs]; rfl))
      (CacheState.inert_of_forall (by decide)) (hupg hs _ (.inr rfl)) (fun _ _ _ => ⟨rfl, rfl⟩)
      (.inr rfl) rfl rfl (.inl (hnil (by rw [hs]; decide))) (fun _ => id) (fun _ hm _ => hm)
      (.inl (by decide))
  | lockedHit hs hk hx =>
    subst hx
    exact .of_state .M .M_L ho h.typed hs rfl (by decide +kernel) (hna (by rw [hs]; rfl))
      (CacheState.inert_of_forall (by decide)) (CacheState.inert_of_forall (by decide))
      (fun _ _ _ => ⟨rfl, rfl⟩) (.inl rfl) rfl rfl (.inl (hnil (by rw [hs]; decide)))
      (fun _ => id) (fun _ hm _ => hm) (.inl (by decide))
  | unlock hs hk hx =>
    subst hx
    exact .of_wake ho h (.inr hs) (.inr ⟨hs, rfl⟩) rfl (by rw [ho.woken_eq.1]) ho.woken_eq.2 rfl

/-- Replacements of lines without stalled requests. -/
theorem Msi.Replacement.tracks (hx : Msi.Replacement l x) (ho : l.Orderly c)
    (h : l.Tallied False c) (hst : l.stalled = []) : l.Tracks c calm x.line := by
  cases hx with
  | stall hs hx =>
    subst hx
    exact .of_eq ho rfl rfl rfl rfl (.inr hst) (fun _ => id) fun _ hm _ => hm
  | evictShared hs hx =>
    subst hx
    exact .of_state .S .I ho h.typed hs rfl (by decide +kernel)
      (ho.not_asks (.inr (by rw [hs]; rfl))) (CacheState.inert_of_forall (by decide))
      (CacheState.inert_of_forall (by decide)) (fun _ _ _ => ⟨rfl, rfl⟩) (.inl rfl) rfl rfl
      (.inl hst) (fun _ => id) (fun _ hm _ => hm) (.inl (by decide))
  | writeBack hs hx =>
    subst hx
    exact .of_state .M .MI_A ho h.typed hs rfl (by decide +kernel)
      (ho.not_asks (.inr (by rw [hs]; rfl))) (CacheState.inert_of_forall (by decide))
      (CacheState.inert_of_forall (by decide)) (fun _ _ _ => ⟨rfl, rfl⟩) (.inl rfl) rfl rfl
      (.inl hst) (fun _ => id) (fun _ hm _ => hm) (.inl (by decide))

/-- An L1 that has not seen its data request has nothing else in its buffer. -/
theorem L1.Tallied.ordered (h : l.Tallied False c) (ho : l.Orderly c) (hna : ¬ l.Asks)
    (hs : l.state = .IS_AD ∨ l.state = .IM_AD) : ∃ m, l.requestToCache = [m] ∧ m.requestor = c ∧
      (if l.state = .IS_AD then m.type.isGets else m.type == .GETM) = true := by
  -- the request is outstanding and not queued
  have hbus : ∀ p : CoherenceRequestType → Bool, (∀ t, p t = true → t.wantsData = true) →
      0 < l.undelivered c p → ∃ m ∈ l.requestToCache, m.requestor = c ∧ p m.type = true := by
    intro p hp hpos
    have hq : l.requestFromCache.countP (fun q => p q.type) = 0 := by
      rw [countP_eq_zero]
      exact fun q hq hpq => hna ⟨q, hq, hp _ hpq⟩
    unfold L1.undelivered at hpos
    obtain ⟨m, hm, hcp⟩ := countP_pos_iff.mp (by omega : 0 < l.requestToCache.countP
      fun m => decide (m.requestor = c) && p m.type)
    rw [Bool.and_eq_true, decide_eq_true_eq] at hcp
    exact ⟨m, hm, hcp⟩
  have halone : ∀ m ∈ l.requestToCache, m.requestor = c → l.requestToCache = [m] := by
    intro m hm hc
    refine (ho.own m hm hc).alone.resolve_right fun hr => ?_
    rcases hs with hs | hs <;> rw [hs] at hr <;> cases hr.2
  rcases hs with hs | hs
  · obtain ⟨m, hm, hc, ht⟩ := hbus CoherenceRequestType.isGets (fun t => by cases t <;> decide)
      (by rw [h.counts.gets, hs]; decide)
    exact ⟨m, halone m hm hc, hc, by rwa [if_pos hs]⟩
  · obtain ⟨m, hm, hc, ht⟩ := hbus (· == .GETM) (fun t => by cases t <;> decide)
      (Nat.lt_of_lt_of_le (by rw [hs]; decide) h.counts.getmLeast)
    exact ⟨m, halone m hm hc, hc, by rwa [if_neg (by rw [hs]; decide)]⟩

/-- Data that overtakes the request. -/
theorem L1.Tracks.of_early (s s' : CacheState) (ho : l.Orderly c) (h : l.Tallied False c)
    (hs : l.state = s) (hs' : l'.state = s')
    (htab : s = .IS_AD ∧ s' = .IS_A ∨ s = .IM_AD ∧ s' = .IM_A) (hna : ¬ l.Asks)
    (hq : l'.requestFromCache = l.requestFromCache) (hd : l'.requestToCache = l.requestToCache)
    (hst : l'.stalled = l.stalled) (hWB : l'.requestToCacheWB = l.requestToCacheWB)
    (hr : l.responseToCache ≠ []) : l.Tracks c calm l' := by
  subst hs hs'
  obtain ⟨m, hm, hc, ht⟩ := h.ordered ho hna (by rcases htab with h | h <;> simp [h.1])
  have hasks := L1.asks_congr hq
  have hno : ¬ l.HasSide := fun hs => hna (ho.asks_of_hasSide hs).1
  have hno' : ¬ l'.HasSide := (L1.hasSide_congr hq).not.mpr hno
  have hstnil : l.stalled = [] := ho.stalled_eq_nil (by rcases htab with h | h <;> rw [h.1] <;> decide)
  have hkeeps : (l.mode c).Keeps (l'.mode c) := by
    rw [L1.mode, L1.mode, hd, hm, foldl_cons, foldl_cons, foldl_nil, foldl_nil,
      CacheState.sees_own hc, CacheState.sees_own hc]
    rcases htab with ⟨h1, h2⟩ | ⟨h1, h2⟩ <;> rw [h1] at ht <;> rw [h1, h2] <;> revert ht <;>
      generalize m.type = t <;> cases t <;> decide
  have hheeds : ∀ t : CoherenceRequestType, t.wantsData = true → l'.state.heeds t →
      l.state.heeds t := by
    rcases htab with ⟨h1, h2⟩ | ⟨h1, h2⟩ <;> rw [h1, h2] <;> decide +kernel
  have hlost : l.state.lost = false ∧ l'.state.lost = false ∧ l'.state ≠ .IM_D ∧
      l'.state.shares = false := by
    rcases htab with ⟨h1, h2⟩ | ⟨h1, h2⟩ <;> rw [h1, h2] <;> decide
  exact {
    orderly := {
      recorded := .inl (hst.trans hstnil)
      asked := by
        rw [hq]
        exact ho.asked_of_not_asks hna _
      side := fun hD => absurd hD hlost.2.2.1
      own := by
        intro m' hm' hc'
        rw [hd] at hm'
        obtain ⟨-, h2, -, h4⟩ := ho.own m' hm' hc'
        rw [hm, mem_singleton] at hm'
        refine ⟨.inl (by rw [hd, hm, hm']), fun ht' => .inr (.inl ?_), fun _ => hasks.not.mpr hna,
          hWB ▸ h4⟩
        rcases htab with ⟨h1, -⟩ | ⟨-, h2⟩
        · rw [h1, if_pos rfl, ← hm', ht'] at ht
          cases ht
        · exact h2 }
    asks := hasks.mpr
    owns := fun _ h => hkeeps.1 ▸ h
    shares := fun _ => hkeeps.2
    keeps := fun h ha => ⟨hkeeps.1 ▸ h, hasks.not.mpr ha⟩
    heeds := fun _ => .inr hheeds
    unseen := fun m hm _ _ => by rwa [L1.unseen, hd, hst]
    awaits := .inr hr
    lost := by
      unfold L1.Lost
      rw [L1.hasSide_congr hq, hlost.1, hlost.2.1]
      simp
    own := by
      intro m' hm' _
      refine ⟨hd ▸ hm', fun _ hsh => ?_⟩
      rw [hlost.2.2.2] at hsh
      cases hsh
    buffered := fun h => .inl (hd ▸ h)
    deliveredWB := fun m hm => hWB ▸ hm
    releases := fun m hm _ => hWB ▸ hm }

theorem Msi.Response.tracks {m : ResponseMsg β} (hx : Msi.Response c l i m x)
    (hm : l.responseToCache[i]? = some m) (ho : l.Orderly c) (h : l.Tallied False c)
    (hna : ¬ l.Asks) : l.Tracks c calm x.line := by
  have hne : l.responseToCache ≠ [] := ne_nil_of_mem (mem_of_getElem? hm)
  have hwake : ¬ l.state.holds → l.requestToCache ++ l.woken = l.requestToCache ∧
      l.orphans = l.stalled ∧ l.stalled = [] := by
    intro hs
    rw [(ho.woken_eq_nil hs).1, (ho.woken_eq_nil hs).2, ho.stalled_eq_nil hs, append_nil]
    exact ⟨rfl, rfl, rfl⟩
  -- the state changes as in `L1.Tracks.of_state`
  have hstate : ∀ (s s' : CacheState) {l' : L1 n β}, l.state = s → l'.state = s' →
      s.Evolves s' → (∀ t, msiOwn s t = s) → (∀ t, msiOwn s' t = s') →
      s.lost = false ∧ s'.lost = false → l'.requestFromCache = l.requestFromCache →
      l'.requestToCache = l.requestToCache → l'.stalled = l.stalled →
      (l.stalled = [] ∨ s'.holds ∧ l'.waiting = some .requestToCache) →
      l'.requestToCacheWB = l.requestToCacheWB → l.Tracks c calm l' :=
    fun s s' _ hs hs' htab hin hin' hlost hq hd hst hrec hWB =>
      .of_state s s' ho h.typed hs hs' htab hna (CacheState.inert_of_forall hin)
        (CacheState.inert_of_forall hin') (fun _ _ _ => hlost) (.inl hq) hd hst hrec
        (fun _ hm => hWB ▸ hm) (fun _ hm _ => hWB ▸ hm) (.inr hne)
  cases hx with
  | ignore hs hx =>
    subst hx
    exact .of_eq ho rfl rfl rfl rfl (.inl rfl) (fun _ => id) fun _ hm _ => hm
  | early s' hs hx =>
    subst hx
    exact .of_early l.state s' ho h rfl rfl hs hna rfl rfl rfl rfl hne
  | share r hs hrq hk hx =>
    subst hx
    obtain ⟨h1, h2, h3⟩ := hwake (by rw [hs]; decide)
    exact hstate .IS_D .S hs rfl (by decide +kernel) (by decide) (by decide) ⟨rfl, rfl⟩ rfl h1 h2
      (.inl h3) rfl
  | readOnce r hs hrq hk hx =>
    subst hx
    obtain ⟨h1, h2, h3⟩ := hwake (by rw [hs]; decide)
    exact hstate .IS_DI .I hs rfl (by decide +kernel) (by decide) (by decide) ⟨rfl, rfl⟩ rfl h1 h2
      (.inl h3) rfl
  | modify r hs hrq hk hx =>
    subst hx
    obtain ⟨h1, h2, h3⟩ := hwake (by rw [hs]; decide)
    exact hstate .IM_D .M hs rfl (by decide +kernel) (by decide) (by decide) ⟨rfl, rfl⟩ rfl h1 h2
      (.inl h3) rfl
  | modifyOnce r s' hs hrq hk hx =>
    subst hx
    rcases hs with ⟨hs, rfl⟩ | ⟨hs, rfl⟩
    · exact hstate .IM_DS .MS_A hs rfl (by decide +kernel) (by decide) (by decide) ⟨rfl, rfl⟩ rfl
        rfl rfl (.inl (hwake (by rw [hs]; decide)).2.2) rfl
    · exact hstate .IM_DI .MI_A hs rfl (by decide +kernel) (by decide) (by decide) ⟨rfl, rfl⟩ rfl
        rfl rfl (.inl (hwake (by rw [hs]; decide)).2.2) rfl
  | lock hs hrq hx =>
    subst hx
    exact hstate .IM_DL .M_L hs rfl (by decide +kernel) (by decide) (by decide) ⟨rfl, rfl⟩ rfl
      rfl rfl (ho.recorded.imp_right fun hr => ⟨.inr rfl, hr.2⟩) rfl

/-- The oldest request of the buffer is another core's. -/
theorem L1.Snooped.tracks {m : RequestMsg n} (hx : L1.Snooped l 0 m l') (ho : l.Orderly c)
    (h : l.Tallied False c) (hm : l.requestToCache[0]? = some m) (hc : m.requestor ≠ c) :
    l.Tracks c calm l' := by
  have hl := h.ok.live
  obtain ⟨rest, hrest⟩ := eq_cons_of_getElem?_zero hm
  have htail : l'.requestToCache = rest := by rw [hx.requestToCache, hrest]; rfl
  have hmode : l'.mode c = l.mode c :=
    L1.mode_of_cons hrest htail (by rw [CacheState.sees_other hc, hx.state])
  have hasks := L1.asks_congr hx.requestFromCache
  -- behind another core's request, an own one is a GETM
  have hown : ∀ m' ∈ l.requestToCache, m'.requestor = c → m'.type = .GETM ∧ l.state.owns = true := by
    intro m' hm' hc'
    refine (ho.own m' hm' hc').alone.resolve_left fun h => hc ?_
    rw [hrest] at h
    rw [(cons_eq_cons.mp h).1]
    exact hc'
  have hmem : ∀ m' ∈ l'.requestToCache, m' ∈ l.requestToCache := by
    rw [htail, hrest]
    exact fun m' => mem_cons_of_mem m
  have hside : l.state = .IM_D → ¬ l.HasSide := by
    intro hD hs
    have := ho.side hD hs
    rw [hrest] at this
    cases this
  exact {
    orderly := {
      recorded := by
        rw [hx.stalled, hx.state]
        by_cases hs : l.state.holds
        · rw [msiSnooped_holds hs]
          exact .inr ⟨hs, hx.waiting hs⟩
        · rw [if_neg hs, append_nil]
          exact .inl (ho.stalled_eq_nil hs)
      asked := by
        intro q hq
        rw [hx.requestFromCache] at hq
        rw [hx.state]
        refine msiSnooped_asks hl (ho.asked q hq) fun _ hD => ?_
        exact Bool.eq_false_iff.mpr fun hs => hside hD ⟨q, hq, hs⟩
      side := by
        intro hD hs
        rw [hx.state] at hD
        rw [L1.hasSide_congr hx.requestFromCache] at hs
        exact absurd hs (hside (msiSnooped_eq_IM_D hl hD))
      own := by
        intro m' hm' hc'
        have hm' := hmem m' hm'
        obtain ⟨ht, hst⟩ := hown m' hm' hc'
        have hst' : l'.state.owns = true := by rwa [hx.state, msiSnooped_owns hl]
        exact ⟨.inr ⟨ht, hst'⟩, fun _ => .inr (.inr hst'),
          fun hw => hasks.not.mpr ((ho.own m' hm' hc').ordered hw),
          hx.requestToCacheWB ▸ (ho.own m' hm' hc').apart⟩ }
    asks := hasks.mpr
    owns := fun _ h => hmode ▸ h
    shares := fun _ h => hmode ▸ h
    keeps := fun h ha => ⟨hmode ▸ h, hasks.not.mpr ha⟩
    heeds := fun _ => .inr fun t ht h => msiSnooped_heeds hl ht (hx.state ▸ h)
    unseen := by
      intro m' hm' _ hh
      rw [L1.unseen, hrest, mem_append, mem_cons] at hm'
      rw [L1.unseen, hx.stalled, htail, mem_append, mem_append]
      rcases hm' with hm' | rfl | hm'
      · exact .inl (.inl hm')
      · -- the request at hand: stalled or heeded
        by_cases hs : l.state.holds
        · rw [if_pos hs]
          exact .inl (.inr (mem_singleton_self _))
        · exact absurd (hx.state ▸ hh) (msiSnooped_not_heeds hl hs)
      · exact .inr hm'
    awaits := .inl fun t ht => hmode ▸ ht
    lost := by
      have hnone : ∀ {ms : List (RequestMsg n)}, (∀ m' ∈ ms, m' ∈ l.requestToCache) →
          ¬ ∃ m' ∈ ms, m'.requestor = c ∧ m'.type = .UPG := by
        rintro ms hms ⟨m', hm', hc', ht⟩
        rw [(hown m' (hms m' hm') hc').1] at ht
        cases ht
      unfold L1.Lost
      rw [L1.hasSide_congr hx.requestFromCache]
      exact or_congr_right (iff_of_false (fun h => hnone hmem h.2) fun h => hnone (fun _ => id) h.2)
    own := by
      intro m' hm' hc'
      refine ⟨hmem m' hm', fun ht => ?_⟩
      rw [(hown m' (hmem m' hm') hc').1] at ht
      cases ht
    buffered := fun _ => .inl (by rw [hrest]; exact cons_ne_nil _ _)
    deliveredWB := fun m hm => hx.requestToCacheWB ▸ hm
    releases := fun m hm _ => hx.requestToCacheWB ▸ hm }

/-- What seeing the own request does to an L1, if it comes in time. -/
structure L1.Met (l : L1 n β) (m : RequestMsg n) (l' : L1 n β) : Prop where
  state : l'.state = msiOwn l.state m.type
  waits : l.state.lost = false ∧ (m.type = .UPG → l.state.shares = true ∧ l.state.tally.data = 0)
  requestToCache : l'.requestToCache = l.requestToCache.eraseIdx 0
  requestFromCache : l'.requestFromCache = l.requestFromCache
  stalled : l'.stalled = l.stalled
  waiting : l.state.holds → l'.waiting = l.waiting
  requestToCacheWB : l'.requestToCacheWB = l.requestToCacheWB
  responseToCache : l'.responseToCache = l.responseToCache
  pos : l'.pos = l.pos

theorem L1.Met.tracks {m : RequestMsg n} (hx : L1.Met l m l') (ho : l.Orderly c)
    (h : l.Tallied False c) (hm : l.requestToCache[0]? = some m) (hc : m.requestor = c)
    (hcalm : calm) : l.Tracks c calm l' := by
  obtain ⟨rest, hrest⟩ := eq_cons_of_getElem?_zero hm
  have hmem : m ∈ l.requestToCache := by rw [hrest]; exact mem_cons_self
  have htail : l'.requestToCache = rest := by rw [hx.requestToCache, hrest]; rfl
  have hmode : l'.mode c = l.mode c :=
    L1.mode_of_cons hrest htail (by rw [CacheState.sees_own hc, hx.state])
  have hasks := L1.asks_congr hx.requestFromCache
  have hna : ¬ l.Asks := by
    by_cases hw : m.type.wantsData = true
    · exact (ho.own m hmem hc).ordered hw
    · have ht : m.type = .UPG := by
        have := h.typed.delivered m hmem
        revert hw this
        generalize m.type = t
        cases t <;> decide
      exact ho.not_asks (.inr (hx.waits.2 ht).2)
  have hno : ¬ l.HasSide := fun hs => hna (ho.asks_of_hasSide hs).1
  have hlost : l'.state.lost = false := by
    rw [hx.state]
    have := hx.waits.1
    revert this
    generalize l.state = s
    cases m.type <;> revert s <;> decide
  -- a second own request on the bus is a GETM of an owner
  have hown : ∀ m' ∈ rest, m'.requestor = c → m'.type = .GETM ∧ l.state.owns = true := by
    intro m' hm' hc'
    have hm'' : m' ∈ l.requestToCache := by rw [hrest]; exact mem_cons_of_mem m hm'
    refine (ho.own m' hm'' hc').alone.resolve_left fun h => ?_
    rw [hrest] at h
    rw [(cons_eq_cons.mp h).2] at hm'
    cases hm'
  exact {
    orderly := {
      recorded := by
        rw [hx.stalled, hx.state]
        refine ho.recorded.imp_right fun ⟨hs, hw⟩ => ?_
        rw [msiOwn_of_owns (CacheState.owns_of_holds hs), hx.waiting hs]
        exact ⟨hs, hw⟩
      asked := by
        rw [hx.requestFromCache]
        exact ho.asked_of_not_asks hna _
      side := fun _ hs => absurd ((L1.hasSide_congr hx.requestFromCache).mp hs) hno
      own := by
        intro m' hm' hc'
        rw [htail] at hm'
        obtain ⟨ht, hst⟩ := hown m' hm' hc'
        have hst' : l'.state.owns = true := by rwa [hx.state, msiOwn_of_owns hst]
        exact ⟨.inr ⟨ht, hst'⟩, fun _ => .inr (.inr hst'), fun _ => hasks.not.mpr hna,
          hx.requestToCacheWB ▸ (ho.own m hmem hc).apart⟩ }
    asks := hasks.mpr
    owns := fun _ h => hmode ▸ h
    shares := fun _ h => hmode ▸ h
    keeps := fun h ha => ⟨hmode ▸ h, hasks.not.mpr ha⟩
    heeds := fun _ => .inl hcalm
    unseen := by
      intro m' hm' hc' _
      rw [L1.unseen, hrest, mem_append, mem_cons] at hm'
      rw [L1.unseen, hx.stalled, htail, mem_append]
      rcases hm' with hm' | rfl | hm'
      · exact .inl hm'
      · exact absurd hc hc'
      · exact .inr hm'
    awaits := .inl fun t ht => hmode ▸ ht
    lost := by
      unfold L1.Lost
      rw [L1.hasSide_congr hx.requestFromCache, hx.waits.1, hlost]
      simp
    own := by
      intro m' hm' hc'
      rw [htail] at hm'
      refine ⟨by rw [hrest]; exact mem_cons_of_mem m hm', fun ht => ?_⟩
      rw [(hown m' hm' hc').1] at ht
      cases ht
    buffered := fun _ => .inl (by rw [hrest]; exact cons_ne_nil _ _)
    deliveredWB := fun m hm => hx.requestToCacheWB ▸ hm
    releases := fun m hm _ => hx.requestToCacheWB ▸ hm }

/-- The own UPG comes too late, and a GETM is queued as a side packet. -/
theorem L1.Tracks.of_lost {m : RequestMsg n} (s' : CacheState) (ho : l.Orderly c)
    (hs : l.state.lost = true ∧ ¬ l.state.holds ∧ ¬ l.Asks) (hs' : s' = .IM_D ∨ s' = .IM_DL)
    (hst' : l'.state = s') (hm : l.requestToCache[0]? = some m) (hc : m.requestor = c)
    (ht : m.type = .UPG) (hq : l'.requestFromCache = l.requestFromCache ++ [⟨.GETM, true⟩])
    (hd : l'.requestToCache = l.requestToCache.eraseIdx 0) (hst : l'.stalled = l.stalled)
    (hWB : l'.requestToCacheWB = l.requestToCacheWB) : l.Tracks c calm l' := by
  subst hst'
  obtain ⟨hlost, hholds, hna⟩ := hs
  obtain ⟨rest, hrest⟩ := eq_cons_of_getElem?_zero hm
  have hmem : m ∈ l.requestToCache := by rw [hrest]; exact mem_cons_self
  have halone : l.requestToCache = [m] :=
    (ho.own m hmem hc).alone.resolve_right fun hr => by rw [ht] at hr; cases hr.1
  have hnil : l'.requestToCache = [] := by rw [hd, halone]; rfl
  have hasks : l'.Asks := ⟨⟨.GETM, true⟩, by rw [hq]; simp, rfl⟩
  have hstate : l.mode c = l.state := by
    rw [L1.mode, halone, foldl_cons, foldl_nil, CacheState.sees_own hc, ht]
    revert hlost
    generalize l.state = s
    revert s
    decide
  exact {
    orderly := {
      recorded := .inl (hst.trans (ho.stalled_eq_nil hholds))
      asked := by
        intro q hmem
        rw [hq, mem_append, mem_singleton] at hmem
        rcases hmem with hold | rfl
        · exact ho.asked_of_not_asks hna _ q hold
        · rcases hs' with hs' | hs' <;> rw [hs'] <;> rfl
      side := fun _ _ => hnil
      own := by
        rw [hnil]
        simp }
    asks := fun _ => hasks
    owns := fun h => absurd hasks h
    shares := fun h => absurd hasks h
    keeps := by
      intro hown
      rw [hstate] at hown
      revert hlost hown
      generalize l.state = s
      cases s <;> simp [CacheState.lost, CacheState.owns]
    heeds := fun h => absurd hasks h
    unseen := by
      intro m' hm' hc' _
      rw [L1.unseen, halone, mem_append, mem_singleton] at hm'
      rw [L1.unseen, hst, mem_append]
      rcases hm' with hm' | rfl
      · exact .inl hm'
      · exact absurd hc hc'
    awaits := by
      refine .inl fun t hta => ?_
      rw [hstate] at hta
      revert hlost hta
      generalize l.state = s
      cases t <;> cases s <;> simp [CacheState.lost, CacheState.awaits]
    lost := iff_of_true (.inl ⟨⟨.GETM, true⟩, by rw [hq]; simp, rfl⟩) (.inr ⟨hlost, m, hmem, hc, ht⟩)
    own := by
      rw [hnil]
      simp
    buffered := fun h => absurd hnil h
    deliveredWB := fun m hm => hWB ▸ hm
    releases := fun m hm _ => hWB ▸ hm }

theorem Msi.Own.met_or_lost {m : RequestMsg n} (hx : Msi.Own c l 0 m x) :
    L1.Met l m x.line ∨ m.type = .UPG ∧ l.state.lost = true ∧ ¬ l.state.holds ∧
      l.state.tally.data = 0 ∧ (x.line.state = .IM_D ∨ x.line.state = .IM_DL) ∧
      x.line.requestFromCache = l.requestFromCache ++ [⟨.GETM, true⟩] ∧
      x.line.requestToCache = l.requestToCache.eraseIdx 0 ∧ x.line.stalled = l.stalled ∧
      x.line.requestToCacheWB = l.requestToCacheWB ∧
      x.line.responseToCache = l.responseToCache ∧ x.line.pos = l.pos := by
  cases hx with
  | read hs ht hx | share r hs ht hr hk hx =>
    subst hx
    refine .inl ⟨?_, ?_, rfl, rfl, rfl, ?_, rfl, rfl, rfl⟩
    · rcases ht with ht | ht <;> rw [hs, ht] <;> rfl
    · rcases ht with ht | ht <;> rw [hs, ht] <;> decide
    · rw [hs]
      exact fun h => absurd h (by decide)
  | write hs ht hx | modify r hs ht hr hk hx | upgrade r hs ht hr hk hx
  | lockedUpgrade hs ht hr hx =>
    subst hx
    refine .inl ⟨by rw [hs, ht]; rfl, by rw [hs, ht]; decide, rfl, rfl, rfl, ?_, rfl, rfl, rfl⟩
    rw [hs]
    exact fun h => absurd h (by decide)
  | rewrite hs ht hx =>
    subst hx
    refine .inl ⟨?_, ?_, rfl, rfl, rfl, fun _ => rfl, rfl, rfl, rfl⟩ <;>
      rcases hs with hs | hs | hs <;> rw [hs, ht] <;> decide
  | lostUpgrade hs ht hx =>
    subst hx
    exact .inr ⟨ht, by rw [hs]; rfl, by rw [hs]; decide, by rw [hs]; rfl, .inl rfl, rfl, rfl, rfl, rfl,
      rfl, rfl⟩
  | lostLockedUpgrade hs ht hx =>
    subst hx
    exact .inr ⟨ht, by rw [hs]; rfl, by rw [hs]; decide, by rw [hs]; rfl, .inr rfl, rfl, rfl, rfl, rfl,
      rfl, rfl⟩

/-- The PUTM of another core. -/
theorem L1.Tracks.of_snoopWB {m : RequestMsg n} (ho : l.Orderly c) (h : l.Tallied False c)
    (hm : l.requestToCacheWB[i]? = some m) (hc : m.requestor ≠ c)
    (hs : l'.state = msiSnooped l.state .PUTM) (hq : l'.requestFromCache = l.requestFromCache)
    (hd : l'.requestToCache = l.requestToCache) (hst : l'.stalled = l.stalled)
    (hw : l'.waiting = l.waiting) (hWB : l'.requestToCacheWB = l.requestToCacheWB.eraseIdx i) :
    l.Tracks c calm l' := by
  have hsub : ∀ m' ∈ l'.requestToCacheWB, m' ∈ l.requestToCacheWB := by
    rw [hWB]
    exact fun m' => mem_of_mem_eraseIdx
  have hkept : ∀ m' ∈ l.requestToCacheWB, m'.requestor = c → m' ∈ l'.requestToCacheWB := by
    intro m' hm' hc'
    rw [hWB]
    obtain ⟨k, hk, rfl⟩ := mem_iff_getElem.mp hm'
    refine mem_eraseIdx_iff_getElem.mpr ⟨k, hk, ?_, rfl⟩
    rintro rfl
    rw [getElem?_eq_getElem hk] at hm
    rw [Option.some.inj hm] at hc'
    exact hc hc'
  rcases msiSnooped_putm h.ok.live with hkeep | ⟨hWL, hlost⟩
  · exact .of_eq ho (hs.trans hkeep) hq hd hst (.inl hw) hsub hkept
  · -- no own request is on the bus at the same time
    have hnone : ∀ m' ∈ l.requestToCache, m'.requestor ≠ c := by
      intro m' hm' hc'
      have := mem_of_getElem? hm
      rw [(ho.own m' hm' hc').apart] at this
      cases this
    exact .of_state .SM_WL .IM_WL ho h.typed hWL (hs.trans hlost) (by decide +kernel)
      (ho.not_asks (.inr (by rw [hWL]; rfl))) (fun m' hm' hc' => absurd hc' (hnone m' hm'))
      (fun m' hm' hc' => absurd hc' (hnone m' hm')) (fun m' hm' hc' => absurd hc' (hnone m' hm'))
      (.inl hq) hd hst (.inl (ho.stalled_eq_nil (by rw [hWL]; decide))) hsub hkept
      (.inl (by decide))

end Transitions
