/-
# The modes of an MSI L1

Inside a bus slot the L1s have not all seen the request that was ordered.  The
*mode* of an L1 is the state it will be in once it has seen the requests in its
input buffer: ordering a request changes the modes of all L1s at once, and
delivering it changes no mode.

The tables at the beginning say what a state means for the line: whether its L1
owns or shares it, which answers it waits for and which requests of others it
still reacts to.  Modes are folds of these tables over the buffer, so each fact
about modes is a fact about one request, carried along the buffer.
-/
import Gem5.MsiAccounting

open List

variable {n : ℕ} {β : Type}

/-! ## States -/

/-- The L1 has the line for writing, or waits for the data of a write. -/
def CacheState.owns : CacheState → Bool
  | M | M_L | MS_A | MI_A | IM_D | IM_DS | IM_DI | IM_DL => true
  | _ => false

/-- The L1 has a copy for reading, or waits for the data of a read and will keep the copy. -/
def CacheState.shares : CacheState → Bool
  | S | SM_W | SM_WL | IS_D => true
  | _ => false

/-- The states that wait for the answer to a request of type `t`. -/
def CacheState.awaits (s : CacheState) : CoherenceRequestType → Bool
  | .GETS | .GETI => s == .IS_D || s == .IS_DI
  | .GETM => s == .IM_D || s == .IM_DS || s == .IM_DI || s == .IM_DL
  | _ => false

/-- The states with the data request `q` in `requestFromCache`. -/
def CacheState.asks (s : CacheState) (q : QueuedRequest) : Bool :=
  match q.type, q.side with
  | .GETS, false | .GETI, false => s == .IS_AD
  | .GETM, false => s == .IM_AD || s == .IM_DL
  | .GETM, true => s == .IM_D || s == .IM_DL
  | .UPG, false => true
  | _, _ => false

/-- The copy to be upgraded is gone: the UPG comes too late. -/
def CacheState.lost : CacheState → Bool
  | IM_W | IM_WL => true
  | _ => false

/-- Another core's request of type `t`, once seen, is stalled or changes the state. -/
def CacheState.heeds (s : CacheState) (t : CoherenceRequestType) : Prop :=
  s.holds ∨ msiSnooped s t ≠ s

instance (s : CacheState) (t : CoherenceRequestType) : Decidable (s.heeds t) :=
  inferInstanceAs (Decidable (_ ∨ _))

/-- The part of a change of state that carries over to modes. -/
def CacheState.Keeps (s s' : CacheState) : Prop :=
  s'.owns = s.owns ∧ (s'.shares = true → s.shares = true)

/-- The part of a change of state that the coherence invariant depends on. -/
def CacheState.Evolves (s s' : CacheState) : Prop :=
  s.live = true ∧ s'.live = true ∧ s.Keeps s' ∧
    ∀ t : CoherenceRequestType, t.wantsData = true → s'.heeds t → s.heeds t

instance (s s' : CacheState) : Decidable (s.Keeps s') := inferInstanceAs (Decidable (_ ∧ _))

instance (s s' : CacheState) : Decidable (s.Evolves s') :=
  inferInstanceAs (Decidable (_ ∧ _ ∧ _ ∧ _))

section States

variable {s s' : CacheState} {t u : CoherenceRequestType}

theorem CacheState.owns_of_awaits (h : s.awaits .GETM = true) : s.owns = true := by
  revert s
  decide

theorem CacheState.not_owns_of_awaits (h : s.awaits .GETS = true) : s.owns = false := by
  revert s
  decide

theorem CacheState.not_shares_of_owns (h : s.owns = true) : s.shares = false := by
  revert s
  decide

theorem CacheState.owns_of_holds (h : s.holds) : s.owns = true := by
  revert s
  decide

theorem CacheState.data_of_shares (h : s.shares = true) (hd : s ≠ .IS_D) : s.tally.data = 0 := by
  revert s
  decide

theorem CacheState.wantsData_of_awaits (h : s.awaits t = true) : t.wantsData = true := by
  cases t <;> first | rfl | cases h

theorem msiSnooped_owns (hl : s.live = true) : (msiSnooped s t).owns = s.owns := by
  cases t <;> revert s <;> decide

theorem msiSnooped_shares (hl : s.live = true) (h : (msiSnooped s t).shares = true) :
    s.shares = true := by
  cases t <;> revert s <;> decide

/-- Nobody shares the line after a write has been ordered. -/
theorem msiSnooped_not_shares (hl : s.live = true) (ht : t = .GETM ∨ t = .UPG) :
    (msiSnooped s t).shares = false := by
  rcases ht with rfl | rfl <;> revert s <;> decide

/-- Reads of others leave shared copies alone. -/
theorem msiSnooped_shares_read (hl : s.live = true) (ht : t = .GETS ∨ t = .GETI) :
    (msiSnooped s t).shares = s.shares := by
  rcases ht with rfl | rfl <;> revert s <;> decide

theorem msiSnooped_awaits (hl : s.live = true) : (msiSnooped s t).awaits u = s.awaits u := by
  cases t <;> cases u <;> revert s <;> decide

/-- The requests still to be ordered fit the state, except that a side packet in `IM_D` stands
against everything seen before it is ordered. -/
theorem msiSnooped_asks (hl : s.live = true) {q : QueuedRequest} (h : s.asks q = true)
    (hD : t ≠ .PUTM → s = .IM_D → q.side = false) : (msiSnooped s t).asks q = true := by
  obtain ⟨qt, side⟩ := q
  cases t <;> cases qt <;> cases side <;> revert s <;> decide

theorem msiSnooped_eq_IM_D (hl : s.live = true) (h : msiSnooped s t = .IM_D) : s = .IM_D := by
  cases t <;> revert s <;> decide

theorem msiSnooped_holds (hs : s.holds) : msiSnooped s t = s := by
  rcases hs with rfl | rfl
  · cases t <;> rfl
  · cases t <;> rfl

theorem CacheState.heeds_iff (hl : s.live = true) :
    s.heeds t ↔ s.holds ∨ s.snooped t ≠ s := by
  rw [CacheState.heeds, msiSnooped_eq hl]

/-- A request is heeded once. -/
theorem msiSnooped_not_heeds (hl : s.live = true) (hs : ¬ s.holds) :
    ¬ (msiSnooped s t).heeds t := by
  cases t <;> revert s <;> decide

theorem msiSnooped_heeds (hl : s.live = true) (hu : u.wantsData = true)
    (h : (msiSnooped s t).heeds u) : s.heeds u := by
  rw [CacheState.heeds_iff hl]
  cases u
  case UPG | PUTM => cases hu
  all_goals cases t <;> revert s <;> decide

/-- A shared copy heeds every write. -/
theorem CacheState.heeds_of_shares (h : s.shares = true) : s.heeds .GETM := by
  revert s
  decide +kernel

/-- The PUTMs of others change one state only. -/
theorem msiSnooped_putm (hl : s.live = true) :
    msiSnooped s .PUTM = s ∨ s = .SM_WL ∧ msiSnooped s .PUTM = .IM_WL := by
  revert s
  decide

end States

/-! ## Seeing requests -/

/-- The state after seeing the own request of type `t`, if it comes in time. -/
def msiOwn : CacheState → CoherenceRequestType → CacheState
  | .IS_AD, .GETS | .IS_AD, .GETI => .IS_D
  | .IS_A, .GETS | .IS_A, .GETI => .S
  | .IM_AD, .GETM => .IM_D
  | .IM_A, .GETM => .M
  | .SM_W, .UPG => .M
  | .SM_WL, .UPG => .M_L
  | s, _ => s

/-- The state of L1 `c` after seeing `m`. -/
def CacheState.sees (c : Fin n) (s : CacheState) (m : RequestMsg n) : CacheState :=
  if m.requestor = c then msiOwn s m.type else msiSnooped s m.type

/-- The state of L1 `c` once it has seen the requests in its input buffer. -/
def L1.mode (c : Fin n) (l : L1 n β) : CacheState := l.requestToCache.foldl (CacheState.sees c) l.state

/-- The own requests among `ms` do not change the state. -/
def CacheState.Inert (c : Fin n) (s : CacheState) (ms : List (RequestMsg n)) : Prop :=
  ∀ m ∈ ms, m.requestor = c → msiOwn s m.type = s

section Own

variable {s : CacheState} {t u : CoherenceRequestType}

theorem msiOwn_live (hl : s.live = true) : (msiOwn s t).live = true := by
  cases t <;> revert s <;> decide

theorem msiOwn_of_owns (h : s.owns = true) : msiOwn s t = s := by
  cases t <;> revert s <;> decide

/-- Only an answer to an own data request makes a copy shared. -/
theorem msiOwn_shares (ht : t.wantsData = false) (h : (msiOwn s t).shares = true) :
    s.shares = true := by
  cases t
  case GETS | GETI | GETM => cases ht
  all_goals revert s; decide

theorem msiOwn_msiSnooped (hl : s.live = true) (h : msiOwn s u = s) :
    msiOwn (msiSnooped s t) u = msiSnooped s t := by
  cases t <;> cases u <;> revert s <;> decide

/-- Ordering a queued data request makes its issuer wait for the answer. -/
theorem msiOwn_awaits {q : QueuedRequest} (h : s.asks q = true) (hw : q.type.wantsData = true) :
    (msiOwn s q.type).awaits q.type = true := by
  obtain ⟨qt, side⟩ := q
  cases qt
  case UPG | PUTM => cases hw
  all_goals cases side <;> revert s <;> decide

end Own

section Modes

variable {c : Fin n} {s s' : CacheState} {t : CoherenceRequestType} {m : RequestMsg n}
  {ms : List (RequestMsg n)} {l l' : L1 n β}

theorem CacheState.sees_own (h : m.requestor = c) : s.sees c m = msiOwn s m.type := if_pos h

theorem CacheState.sees_other (h : m.requestor ≠ c) : s.sees c m = msiSnooped s m.type := if_neg h

theorem CacheState.sees_live (hl : s.live = true) : (s.sees c m).live = true := by
  unfold CacheState.sees
  split
  · exact msiOwn_live hl
  · exact (msiSnooped_spec s m.type hl).1

/-- An owner stays one. -/
theorem CacheState.sees_owns (hl : s.live = true) (h : s.owns = true) :
    (s.sees c m).owns = true := by
  unfold CacheState.sees
  split
  · rwa [msiOwn_of_owns h]
  · rwa [msiSnooped_owns hl]

theorem CacheState.owns_foldl (hl : s.live = true) (h : s.owns = true) :
    (ms.foldl (CacheState.sees c) s).owns = true := by
  refine (foldlRecOn (motive := fun s : CacheState => s.live = true ∧ s.owns = true) ms _
    ⟨hl, h⟩ ?_).2
  intro s ⟨hl, h⟩ m _
  exact ⟨sees_live hl, sees_owns hl h⟩

/-- Without own data requests no copy becomes shared. -/
theorem CacheState.shares_foldl (hl : s.live = true)
    (hms : ∀ m ∈ ms, m.requestor = c → m.type.wantsData = false)
    (h : (ms.foldl (CacheState.sees c) s).shares = true) : s.shares = true := by
  refine (foldlRecOn (motive := fun s' : CacheState => s'.live = true ∧
    (s'.shares = true → s.shares = true)) ms _ ⟨hl, id⟩ ?_).2 h
  intro s' ⟨hl', ih⟩ m hm
  refine ⟨sees_live hl', fun h => ih ?_⟩
  by_cases hc : m.requestor = c
  · rw [sees_own hc] at h
    exact msiOwn_shares (hms m hm hc) h
  · rw [sees_other hc] at h
    exact msiSnooped_shares hl' h

theorem CacheState.Inert.sees (h : s.Inert c ms) (hl : s.live = true) (hm : m ∈ ms) :
    (s.sees c m).Inert c ms := by
  intro m' hm' hc'
  by_cases hc : m.requestor = c
  · rw [sees_own hc, h m hm hc]
    exact h m' hm' hc'
  · rw [sees_other hc]
    exact msiOwn_msiSnooped hl (h m' hm' hc')

/-- Where no own request matters, the mode owns and awaits what the state does. -/
theorem CacheState.Inert.foldl (h : s.Inert c ms) (hl : s.live = true) :
    (ms.foldl (CacheState.sees c) s).owns = s.owns ∧
      ∀ u, (ms.foldl (CacheState.sees c) s).awaits u = s.awaits u := by
  refine (foldlRecOn (motive := fun s' : CacheState => s'.live = true ∧ s'.Inert c ms ∧
    s'.owns = s.owns ∧ ∀ u, s'.awaits u = s.awaits u) ms _ ⟨hl, h, rfl, fun _ => rfl⟩ ?_).2.2
  intro s' ⟨hl', hin, ho, ha⟩ m hm
  refine ⟨sees_live hl', hin.sees hl' hm, ?_⟩
  by_cases hc : m.requestor = c
  · rw [sees_own hc, hin m hm hc]
    exact ⟨ho, ha⟩
  · rw [sees_other hc]
    exact ⟨by rw [msiSnooped_owns hl', ho], fun u => by rw [msiSnooped_awaits hl', ha u]⟩

theorem CacheState.Keeps.snooped (h : s.Keeps s') (hl : s.live = true) (hl' : s'.live = true)
    (ht : t ≠ .PUTM) : (msiSnooped s t).Keeps (msiSnooped s' t) := by
  refine ⟨by rw [msiSnooped_owns hl, msiSnooped_owns hl', h.1], fun hsh => ?_⟩
  have hread : t = .GETS ∨ t = .GETI := by
    cases t
    case GETM => rw [msiSnooped_not_shares hl' (.inl rfl)] at hsh; cases hsh
    case UPG => rw [msiSnooped_not_shares hl' (.inr rfl)] at hsh; cases hsh
    case PUTM => exact absurd rfl ht
    all_goals simp
  rw [msiSnooped_shares_read hl hread]
  exact h.2 (msiSnooped_shares hl' hsh)

/-- A change of state is a change of mode. -/
theorem CacheState.Keeps.foldl (h : s.Keeps s') (hl : s.live = true) (hl' : s'.live = true)
    (hin : s.Inert c ms) (hin' : s'.Inert c ms) (ht : ∀ m ∈ ms, m.type ≠ .PUTM) :
    (ms.foldl (CacheState.sees c) s).Keeps (ms.foldl (CacheState.sees c) s') := by
  induction ms generalizing s s' with
  | nil => exact h
  | cons m ms ih =>
    have htail : ∀ {s : CacheState}, s.Inert c (m :: ms) → s.Inert c ms :=
      fun h m' hm' => h m' (mem_cons_of_mem m hm')
    refine ih ?_ (sees_live hl) (sees_live hl') (htail (hin.sees hl mem_cons_self))
      (htail (hin'.sees hl' mem_cons_self)) fun m' hm' => ht m' (mem_cons_of_mem m hm')
    by_cases hc : m.requestor = c
    · rwa [sees_own hc, sees_own hc, hin m mem_cons_self hc, hin' m mem_cons_self hc]
    · rw [sees_other hc, sees_other hc]
      exact h.snooped hl hl' (ht m mem_cons_self)

theorem L1.mode_live (hl : l.state.live = true) : (l.mode c).live = true :=
  foldlRecOn (motive := fun s : CacheState => s.live = true) _ _ hl
    fun _ hl _ _ => CacheState.sees_live hl

theorem L1.mode_eq_state (h : l.requestToCache = []) : l.mode c = l.state := by
  rw [L1.mode, h, foldl_nil]

/-- Seeing the oldest request changes no mode. -/
theorem L1.mode_of_cons (hm : l.requestToCache = m :: ms) (hd : l'.requestToCache = ms)
    (hs : l'.state = l.state.sees c m) : l'.mode c = l.mode c := by
  rw [L1.mode, L1.mode, hm, hd, hs, foldl_cons]

/-- A line that is held stalls what it sees. -/
theorem L1.mode_of_holds (h : l.state.holds) : l.mode c = l.state := by
  refine foldlRecOn (motive := fun s : CacheState => s = l.state) _ _ rfl ?_
  rintro s rfl m -
  by_cases hc : m.requestor = c
  · rw [CacheState.sees_own hc, msiOwn_of_owns (CacheState.owns_of_holds h)]
  · rw [CacheState.sees_other hc, msiSnooped_holds h]

/-- The mode has seen every write in the buffer. -/
theorem L1.mode_not_shares (hl : l.state.live = true)
    (hms : ∀ m ∈ l.requestToCache, m.requestor = c → m.type.wantsData = false)
    (hm : m ∈ l.requestToCache) (hc : m.requestor ≠ c) (ht : m.type = .GETM) :
    (l.mode c).shares = false := by
  obtain ⟨ms₁, ms₂, hsplit⟩ := append_of_mem hm
  rw [hsplit] at hms
  have hlive : (ms₁.foldl (CacheState.sees c) l.state).live = true :=
    foldlRecOn (motive := fun s : CacheState => s.live = true) _ _ hl
      fun _ hl _ _ => CacheState.sees_live hl
  rw [Bool.eq_false_iff, L1.mode, hsplit, foldl_append, foldl_cons, CacheState.sees_other hc, ht]
  intro h
  have hsh := CacheState.shares_foldl (msiSnooped_spec _ _ hlive).1
    (fun m' hm' => hms m' (by simp [hm'])) h
  rw [msiSnooped_not_shares hlive (.inl rfl)] at hsh
  cases hsh

end Modes
