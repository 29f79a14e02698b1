/-
# What an MSI L1 does with each event

The transitions of `msiCache` that occur in a run, written out: for each in_port
an inductive predicate lists the possible outcomes with the resulting record.
Everything proved later about the MSI L1 starts from these lists and never
unfolds the table again.

`L1.Ok` collects the facts about one L1 that make the lists complete: the state
is one of the twenty a line ever enters, and the Sequencer's request fits the
state.
-/
import Gem5.SnoopBus
import Gem5.MsiTables

variable {n : ℕ} {β : Type}

/-! ## The states of a run -/

/-- The states that a line of an MSI L1 enters. -/
def CacheState.live : CacheState → Bool
  | I | S | M | IS_AD | IS_D | IS_DI | IS_A | IM_AD | IM_D | IM_DS | IM_DI | IM_A | MI_A | MS_A
  | SM_W | IM_W | SM_WL | IM_WL | IM_DL | M_L => true
  | _ => false

/-- The kind of processor request a state waits for. -/
inductive PendingKind
  | none | read | write | lockedRead
  deriving DecidableEq, Repr

/-- The request-pending transient states. -/
def CacheState.pending : CacheState → PendingKind
  | IS_AD | IS_D | IS_DI | IS_A => .read
  | IM_AD | IM_D | IM_DS | IM_DI | IM_A | SM_W | IM_W => .write
  | SM_WL | IM_WL | IM_DL => .lockedRead
  | _ => .none

/-- The kind under which a request waits once it is popped. -/
def RubyRequestType.kind : RubyRequestType → PendingKind
  | LD | IFETCH => .read
  | ST | RMW_Read | Load_Linked | Store_Conditional => .write
  | Locked_RMW_Read => .lockedRead
  | Locked_RMW_Write => .none

/-- The states in which the L1 holds the line for a locked read-modify-write and stalls the
requests of others. -/
def CacheState.holds (s : CacheState) : Prop := s = .IM_DL ∨ s = .M_L

instance (s : CacheState) : Decidable s.holds := inferInstanceAs (Decidable (_ ∨ _))

/-- The request of the Sequencer fits the state: a request still in the mandatory queue meets
an idle line, a popped one the state that waits for it. -/
def L1.RequestOk (l : L1 n β) : Prop :=
  match l.request with
  | none => l.inMandatoryQueue = false ∧ l.state.pending = .none
  | some r =>
    if l.inMandatoryQueue then
      l.state.pending = .none ∧ (r.type = .Locked_RMW_Write ↔ l.state = .M_L)
    else l.state.pending = r.type.kind ∧ l.state.pending ≠ .none

/-- The facts about one L1 that its own transitions keep. -/
structure L1.Ok (l : L1 n β) : Prop where
  live : l.state.live = true
  valid : l.valid = decide (l.state ≠ .I)
  atomic : l.isAtomic = true → l.state.holds
  blocked : l.blocked = true ↔ l.state = .M_L
  request : l.RequestOk
  stalledWB : l.stalledWB = []

/-- The stalled requests that waking the line hands out again. -/
def L1.woken (l : L1 n β) : List (RequestMsg n) :=
  if l.waiting = some .requestToCache then l.stalled else []

/-- The stalled requests that waking the line forgets, because a later stall has overwritten the
record of their buffer. -/
def L1.orphans (l : L1 n β) : List (RequestMsg n) :=
  if l.waiting = some .requestToCache then [] else l.stalled

/-- Waking a line moves the stalled requests back. -/
theorem L1.wakeUpAllBuffers_eq (l : L1 n β) (hWB : l.stalledWB = []) :
    l.wakeUpAllBuffers = { l with
      requestToCache := l.requestToCache ++ l.woken, stalled := l.orphans, waiting := none } := by
  unfold L1.wakeUpAllBuffers L1.reanalyze L1.woken L1.orphans
  obtain ⟨⟩ := l
  subst hWB
  split <;> simp_all

/-- In_ports of a higher rank wake the line, those of rank 0 only erase its record. -/
theorem L1.wakeUpBuffers_eq (k : ℕ) (l : L1 n β) (hWB : l.stalledWB = []) :
    l.wakeUpBuffers k = if k = 0 then { l with waiting := none } else { l with
      requestToCache := l.requestToCache ++ l.woken, stalled := l.orphans, waiting := none } := by
  unfold L1.wakeUpBuffers
  split
  · rfl
  · exact L1.wakeUpAllBuffers_eq l hWB

namespace L1.Ok

variable {l : L1 n β}

/-- An idle line is in one of six states. -/
theorem idle_cases (h : l.Ok) (hp : l.state.pending = .none) :
    l.state = .I ∨ l.state = .S ∨ l.state = .M ∨ l.state = .MI_A ∨ l.state = .MS_A ∨
      l.state = .M_L := by
  have hl := h.live
  revert hl hp
  generalize l.state = s
  revert s
  decide

/-- The states that wait for a processor request without holding the line. -/
theorem pending_cases (h : l.Ok) (hp : l.state.pending ≠ .none) (hh : ¬ l.state.holds) :
    l.state = .IS_AD ∨ l.state = .IM_AD ∨ l.state = .IS_D ∨ l.state = .IS_DI ∨
      l.state = .IM_D ∨ l.state = .IM_DS ∨ l.state = .IM_DI ∨ l.state = .IS_A ∨ l.state = .IM_A ∨
      l.state = .SM_W ∨ l.state = .IM_W ∨ l.state = .SM_WL ∨ l.state = .IM_WL := by
  have hl := h.live
  revert hl hp hh
  generalize l.state = s
  revert s
  decide

theorem not_atomic (h : l.Ok) (hs : ¬ l.state.holds) : l.isAtomic = false := by
  cases ha : l.isAtomic with
  | false => rfl
  | true => exact absurd (h.atomic ha) hs

end L1.Ok

section Transitions

variable [Inhabited β] {c : Fin n} {l : L1 n β} {x : Firing n β}

-- the tables of states and request types, and what the actions compute
attribute [local simp] CacheState.live CacheState.pending CacheState.holds RubyRequestType.kind
  Firing.readCallback Firing.writeCallback L1.isAtomicLine L1.wakeUpBuffers_eq
  L1.wakeUpAllBuffers_eq L1.woken L1.orphans

/-! ## Processor events -/

/-- The outcomes of serving the request `r` of the mandatory queue. -/
inductive Msi.Processor (c : Fin n) (l : L1 n β) (r : SequencerRequest β) (x : Firing n β) : Prop
  | stall (hs : l.state = .MS_A ∨ l.state = .MI_A)
      (hx : x = { line := { l with waiting := some .mandatoryQueue } })
  | readMiss (t : CoherenceRequestType) (hs : l.state = .I) (hr : r.type.kind = .read)
      (ht : t = .GETS ∨ t = .GETI)
      (hx : x = { line := { l with
        state := .IS_AD, valid := true, dataBlk := default, isAtomic := false, locked := false
        tbe := some default, inMandatoryQueue := false
        requestFromCache := l.requestFromCache ++ [⟨t, false⟩] } })
  | writeMiss (hs : l.state = .I) (hr : r.type.kind = .write)
      (hx : x = { line := { l with
        state := .IM_AD, valid := true, dataBlk := default, isAtomic := false, locked := false
        tbe := some default, inMandatoryQueue := false
        requestFromCache := l.requestFromCache ++ [⟨.GETM, false⟩] } })
  | lockedMiss (hs : l.state = .I) (hr : r.type = .Locked_RMW_Read)
      (hx : x = {
        line := { l with
          state := .IM_DL, valid := true, dataBlk := default, isAtomic := true, locked := false
          tbe := some default, inMandatoryQueue := false
          requestFromCache := l.requestFromCache ++ [⟨.GETM, false⟩] }
        atomics := [.GETMATOMICST] })
  | upgrade (hs : l.state = .S) (hr : r.type.kind = .write)
      (hx : x = { line := { l with
        state := .SM_W, inMandatoryQueue := false
        requestFromCache := l.requestFromCache ++ [⟨.UPG, false⟩] } })
  | lockedUpgrade (hs : l.state = .S) (hr : r.type = .Locked_RMW_Read)
      (hx : x = {
        line := { l with
          state := .SM_WL, inMandatoryQueue := false
          requestFromCache := l.requestFromCache ++ [⟨.UPG, false⟩] }
        atomics := [.GETMATOMICST] })
  | readHit (hs : l.state = .S ∨ l.state = .M ∨ l.state = .MI_A) (hr : r.type.kind = .read)
      (hx : x = {
        line := { l with request := none, inMandatoryQueue := false }
        callbacks := [⟨c, r.type, true, l.pos, l.dataBlk, true⟩] })
  | writeHit (hs : l.state = .M ∨ l.state = .MI_A) (hr : r.type.kind = .write)
      (hx : x = {
        line := { l with
          request := none, inMandatoryQueue := false, dataBlk := r.apply l.dataBlk
          locked := (handleLlsc r.type l.locked).2 }
        callbacks := [⟨c, r.type, true, l.pos, r.apply l.dataBlk,
          (handleLlsc r.type l.locked).1⟩] })
  | lockedHit (hs : l.state = .M) (hr : r.type = .Locked_RMW_Read)
      (hx : x = {
        line := { l with
          state := .M_L, request := none, inMandatoryQueue := false, locked := false
          blocked := true, isAtomic := true }
        atomics := [.GETMATOMICST]
        callbacks := [⟨c, .Locked_RMW_Read, true, l.pos, l.dataBlk, true⟩] })
  | unlock (hs : l.state = .M_L) (hr : r.type = .Locked_RMW_Write)
      (hx : x = {
        line := { l with
          state := .M, request := none, inMandatoryQueue := false, locked := false
          blocked := false, isAtomic := false, dataBlk := r.setData l.dataBlk
          requestToCache := l.requestToCache ++ l.woken, stalled := l.orphans, waiting := none }
        atomics := [.GETMATOMICEN]
        callbacks := [⟨c, .Locked_RMW_Write, true, l.pos, r.setData l.dataBlk, true⟩] })

theorem msi_processor (h : l.Ok) {r : SequencerRequest β} (hr : l.request = some r)
    (hq : l.inMandatoryQueue = true)
    (hx : l.trigger msi c .mandatory r.type.toEvent = some x) : Msi.Processor c l r x := by
  have hreq := h.request
  simp only [L1.RequestOk, hr, hq, if_true] at hreq
  obtain ⟨hp, hlock⟩ := hreq
  have hv := h.valid
  obtain ⟨t, ht, rfl⟩ := L1.trigger_eq_some hx
  rcases h.idle_cases hp with hs | hs | hs | hs | hs | hs <;> rw [hs] at ht hlock hv
  · -- I: a miss
    cases hrt : r.type <;> rw [hrt] at ht
    case LD =>
      cases ht
      exact .readMiss .GETS hs (by simp [hrt]) (by simp) (by simp [L1.allocate, hv])
    case IFETCH =>
      cases ht
      exact .readMiss .GETI hs (by simp [hrt]) (by simp) (by simp [L1.allocate, hv])
    case Locked_RMW_Read =>
      cases ht
      exact .lockedMiss hs hrt (by simp [L1.allocate, hv])
    all_goals
      cases ht
      try exact .writeMiss hs (by simp [hrt]) (by simp [L1.allocate, hv])
  · -- S: reads hit, writes ask for an upgrade
    cases hrt : r.type <;> rw [hrt] at ht
    case LD | IFETCH =>
      cases ht
      exact .readHit (by simp [hs]) (by simp [hrt]) (by simp [RubyRequestType.isRead, hr, hrt, hs])
    case Locked_RMW_Read =>
      cases ht
      exact .lockedUpgrade hs hrt (by simp)
    all_goals
      cases ht
      try exact .upgrade hs (by simp [hrt]) (by simp)
  · -- M: everything hits
    cases hrt : r.type <;> rw [hrt] at ht
    case LD | IFETCH =>
      cases ht
      exact .readHit (by simp [hs]) (by simp [hrt]) (by simp [RubyRequestType.isRead, hr, hrt, hs])
    case Locked_RMW_Read =>
      cases ht
      exact .lockedHit hs hrt (by simp [SequencerRequest.apply, RubyRequestType.isRead,
        RubyRequestType.setsData, handleLlsc, blockedAfter, hr, hrt])
    all_goals
      cases ht
      try exact .writeHit (by simp [hs]) (by simp [hrt]) (by
        simp [RubyRequestType.isRead, blockedAfter, hr, hrt, hs])
  · -- MI_A: as M, but a locked read waits
    cases hrt : r.type <;> rw [hrt] at ht
    case LD | IFETCH =>
      cases ht
      exact .readHit (by simp [hs]) (by simp [hrt]) (by simp [RubyRequestType.isRead, hr, hrt, hs])
    case Locked_RMW_Read =>
      cases ht
      exact .stall (by simp [hs]) (by simp [hs])
    all_goals
      cases ht
      try exact .writeHit (by simp [hs]) (by simp [hrt]) (by
        simp [RubyRequestType.isRead, blockedAfter, hr, hrt, hs])
  · -- MS_A: everything waits
    cases hrt : r.type <;> rw [hrt] at ht <;> cases ht <;>
      exact .stall (by simp [hs]) (by simp [hs])
  · -- M_L: only the locked write
    have hrt : r.type = .Locked_RMW_Write := hlock.mpr rfl
    rw [hrt] at ht
    cases ht
    refine .unlock hs hrt ?_
    simp [SequencerRequest.apply, RubyRequestType.isRead, RubyRequestType.setsData, handleLlsc,
      blockedAfter, hr, hrt, h.stalledWB]

/-! ## Replacement -/

/-- The outcomes of choosing the line as a victim. -/
inductive Msi.Replacement (l : L1 n β) (x : Firing n β) : Prop
  | stall (hs : l.state = .MS_A ∨ l.state = .MI_A ∨ l.state = .M_L)
      (hx : x = { line := { l with waiting := some .mandatoryQueue } })
  | evictShared (hs : l.state = .S)
      (hx : x = { line := { l with
        state := .I, valid := false, isAtomic := false, locked := false } })
  | writeBack (hs : l.state = .M)
      (hx : x = { line := { l with
        state := .MI_A, requestFromCacheWB := l.requestFromCacheWB + 1
        waiting := some .mandatoryQueue } })

theorem msi_replacement (h : l.Ok) (hr : l.request = none) (hv : l.valid = true)
    (hx : l.trigger msi c .mandatory .Replacement = some x) : Msi.Replacement l x := by
  have hp : l.state.pending = .none := by
    have hreq := h.request
    simp only [L1.RequestOk, hr] at hreq
    exact hreq.2
  have hI := h.valid
  obtain ⟨t, ht, rfl⟩ := L1.trigger_eq_some hx
  rcases h.idle_cases hp with hs | hs | hs | hs | hs | hs <;> rw [hs] at ht hI
  · simp [hv] at hI
  · cases ht
    exact .evictShared hs (by simp)
  · cases ht
    exact .writeBack hs (by simp)
  · cases ht
    exact .stall (by simp [hs]) (by simp [hs])
  · cases ht
    exact .stall (by simp [hs]) (by simp [hs])
  · cases ht
    exact .stall (by simp [hs]) (by simp [hs])

/-! ## Requests of other cores -/

/-- The state after seeing another core's request. -/
def msiSnooped (s : CacheState) (t : CoherenceRequestType) : CacheState :=
  ((msiCache s t.otherEvent).map Prod.fst).getD s

/-- The states that another core's request changes, read off the table. -/
def CacheState.snooped : CacheState → CoherenceRequestType → CacheState
  | S, .GETM | S, .UPG => I
  | M, .GETS | M, .GETI => MS_A
  | M, .GETM | M, .UPG => MI_A
  | MS_A, .GETM => MI_A
  | IS_D, .GETM | IS_D, .UPG => IS_DI
  | IM_D, .GETS | IM_D, .GETI => IM_DS
  | IM_D, .GETM | IM_DS, .GETM | IM_DS, .UPG => IM_DI
  | SM_W, .GETM | SM_W, .UPG => IM_W
  | SM_WL, .GETM | SM_WL, .UPG | SM_WL, .PUTM => IM_WL
  | s, _ => s

theorem msiSnooped_eq {s : CacheState} (hl : s.live = true) (t : CoherenceRequestType) :
    msiSnooped s t = s.snooped t := by
  cases t <;> revert s <;> decide +kernel

/-- The outcomes of seeing another core's request `m`, the `i`th of the input buffer. -/
inductive Msi.Snoop (l : L1 n β) (i : ℕ) (m : RequestMsg n) (x : Firing n β) : Prop
  | stall (hs : l.state.holds)
      (hx : x = { line := { l with
        requestToCache := l.requestToCache.eraseIdx i, stalled := l.stalled ++ [m]
        waiting := some .requestToCache } })
  | writeBack (hs : l.state = .M)
      (hx : x = { line := { l with
        state := msiSnooped .M m.type, requestToCache := l.requestToCache.eraseIdx i
        requestFromCacheWB := l.requestFromCacheWB + 1 } })
  | invalidate (hs : l.state = .S) (ht : m.type = .GETM ∨ m.type = .UPG)
      (hx : x = { line := { l with
        state := .I, valid := false, isAtomic := false, locked := false
        requestToCache := l.requestToCache.eraseIdx i } })
  | pop (hs : ¬ l.state.holds) (hM : l.state ≠ .M)
      (hS : l.state = .S → m.type = .GETS ∨ m.type = .GETI)
      (hx : x = { line := { l with
        state := msiSnooped l.state m.type, requestToCache := l.requestToCache.eraseIdx i
        locked := l.locked && decide (l.state ≠ .I) } })

/-- The rows of the table for other cores' requests. -/
theorem msiCache_other : ∀ (s : CacheState) (t : CoherenceRequestType), s.live = true → t ≠ .PUTM →
    ∀ p ∈ msiCache s t.otherEvent,
      (s.holds ∧ p = (s, [.z_stallAndWaitRequestQueue])) ∨
      (s = .M ∧ p = (msiSnooped s t, [.bpm_issuePUTMR, .l_popRequestQueue])) ∨
      (s = .S ∧ (t = .GETM ∨ t = .UPG) ∧
        p = (.I, [.ff_deallocateL1CacheBlock, .l_popRequestQueue])) ∨
      (¬ s.holds ∧ s ≠ .M ∧ (s = .S → t = .GETS ∨ t = .GETI) ∧
        p = (msiSnooped s t, [.l_popRequestQueue])) := by
  intro s t hl ht
  cases t <;> revert s <;> first | exact absurd rfl ht | decide +kernel

/-- A popped request leaves the line valid exactly if it was. -/
theorem msiSnooped_valid : ∀ (s : CacheState) (t : CoherenceRequestType), s.live = true →
    (s = .S → t ≠ .GETM ∧ t ≠ .UPG) → msiSnooped s t ≠ .NP ∧ (msiSnooped s t = .I ↔ s = .I) := by
  intro s t hl
  cases t <;> revert s <;> decide +kernel

variable {i : ℕ} {m : RequestMsg n} {t : RubyRequestType}

theorem msi_snoop (h : l.Ok) (ht : m.type ≠ .PUTM)
    (hx : l.trigger msi c (.request i m) m.type.otherEvent = some x) : Msi.Snoop l i m x := by
  obtain ⟨t, hp, rfl⟩ := L1.trigger_eq_some hx
  rcases msiCache_other l.state m.type h.live ht t hp with
    ⟨hs, rfl⟩ | ⟨hs, rfl⟩ | ⟨hs, hm, rfl⟩ | ⟨hh, hM, hS, rfl⟩
  · refine .stall hs ?_
    rcases hs with hs | hs <;> simp [hs]
  · refine .writeBack hs ?_
    have hv := msiSnooped_valid l.state m.type h.live (by simp [hs])
    rw [hs] at hv ⊢
    simp [hv]
  · exact .invalidate hs hm (by simp)
  · refine .pop hh hM hS ?_
    have hv := msiSnooped_valid l.state m.type h.live (fun hs => by
      rcases hS hs with h | h <;> simp [h])
    simp [hv]

/-- The outcome of seeing another core's PUTM. -/
theorem msi_snoopWB (h : l.Ok) (ht : m.type = .PUTM)
    (hx : l.trigger msi c (.requestWB i m) m.type.otherEvent = some x) :
    x = { line := { l with
      state := msiSnooped l.state .PUTM, requestToCacheWB := l.requestToCacheWB.eraseIdx i
      locked := l.locked && decide (l.state ≠ .I) } } := by
  rw [ht] at hx
  obtain ⟨t, hp, rfl⟩ := L1.trigger_eq_some hx
  have htab : ∀ s : CacheState, s.live = true → ∀ p ∈ msiCache s .Other_PUTM,
      p = (msiSnooped s .PUTM, [.l_popRequestWBQueue]) := by decide +kernel
  obtain rfl := htab l.state h.live t hp
  have hv := msiSnooped_valid l.state .PUTM h.live (by simp)
  simp [hv]

/-! ## The core's own requests -/

/-- The outcomes of seeing the own request `m`, the `i`th of the input buffer. -/
inductive Msi.Own (c : Fin n) (l : L1 n β) (i : ℕ) (m : RequestMsg n) (x : Firing n β) : Prop
  | read (hs : l.state = .IS_AD) (ht : m.type = .GETS ∨ m.type = .GETI)
      (hx : x = { line := { l with
        state := .IS_D, requestToCache := l.requestToCache.eraseIdx i } })
  | write (hs : l.state = .IM_AD) (ht : m.type = .GETM)
      (hx : x = { line := { l with
        state := .IM_D, requestToCache := l.requestToCache.eraseIdx i } })
  | rewrite (hs : l.state = .IM_D ∨ l.state = .IM_DI ∨ l.state = .IM_DL) (ht : m.type = .GETM)
      (hx : x = { line := { l with requestToCache := l.requestToCache.eraseIdx i } })
  /-- The data has come first. -/
  | share (r : SequencerRequest β) (hs : l.state = .IS_A) (ht : m.type = .GETS ∨ m.type = .GETI)
      (hr : l.request = some r) (hk : r.type.kind = .read)
      (hx : x = {
        line := { l with
          state := .S, request := none
          requestToCache := l.requestToCache.eraseIdx i, waiting := none }
        callbacks := [⟨c, r.type, false, l.pos, l.dataBlk, true⟩] })
  | modify (r : SequencerRequest β) (hs : l.state = .IM_A) (ht : m.type = .GETM)
      (hr : l.request = some r) (hk : r.type.kind = .write)
      (hx : x = {
        line := { l with
          state := .M, request := none, dataBlk := r.apply l.dataBlk
          locked := (handleLlsc r.type l.locked).2
          requestToCache := l.requestToCache.eraseIdx i, waiting := none }
        callbacks := [⟨c, r.type, false, l.pos, r.apply l.dataBlk,
          (handleLlsc r.type l.locked).1⟩] })
  | upgrade (r : SequencerRequest β) (hs : l.state = .SM_W) (ht : m.type = .UPG)
      (hr : l.request = some r) (hk : r.type.kind = .write)
      (hx : x = {
        line := { l with
          state := .M, request := none, dataBlk := r.apply l.dataBlk
          locked := (handleLlsc r.type l.locked).2
          requestToCache := l.requestToCache.eraseIdx i, waiting := none }
        callbacks := [⟨c, r.type, true, l.pos, r.apply l.dataBlk,
          (handleLlsc r.type l.locked).1⟩] })
  | lockedUpgrade (hs : l.state = .SM_WL) (ht : m.type = .UPG)
      (hr : ∃ r, l.request = some r ∧ r.type = .Locked_RMW_Read)
      (hx : x = {
        line := { l with
          state := .M_L, request := none, locked := false, blocked := true, isAtomic := true
          requestToCache := l.requestToCache.eraseIdx i }
        callbacks := [⟨c, .Locked_RMW_Read, true, l.pos, l.dataBlk, true⟩] })
  | lostUpgrade (hs : l.state = .IM_W) (ht : m.type = .UPG)
      (hx : x = { line := { l with
        state := .IM_D, requestFromCache := l.requestFromCache ++ [⟨.GETM, true⟩]
        tbe := some l.dataBlk, requestToCache := l.requestToCache.eraseIdx i } })
  | lostLockedUpgrade (hs : l.state = .IM_WL) (ht : m.type = .UPG)
      (hx : x = { line := { l with
        state := .IM_DL, requestFromCache := l.requestFromCache ++ [⟨.GETM, true⟩]
        tbe := some l.dataBlk, requestToCache := l.requestToCache.eraseIdx i } })

omit [Inhabited β] in
/-- A popped request is there as long as the state waits for it. -/
theorem L1.Ok.exists_request (h : l.Ok) (hp : l.state.pending ≠ .none) :
    l.inMandatoryQueue = false ∧ ∃ r, l.request = some r ∧ r.type.kind = l.state.pending := by
  have hreq := h.request
  unfold L1.RequestOk at hreq
  cases hr : l.request with
  | none =>
    rw [hr] at hreq
    exact absurd hreq.2 hp
  | some r =>
    rw [hr] at hreq
    cases hq : l.inMandatoryQueue with
    | true =>
      simp only [hq, if_true] at hreq
      exact absurd hreq.1 hp
    | false =>
      simp only [hq, Bool.false_eq_true, if_false] at hreq
      exact ⟨rfl, r, rfl, hreq.1.symm⟩

theorem RubyRequestType.kind_eq_lockedRead :
    t.kind = .lockedRead ↔ t = .Locked_RMW_Read := by
  cases t <;> decide

theorem RubyRequestType.isRead_of_kind (h : t.kind = .write) :
    t.isRead = false ∧ ∀ b, blockedAfter t b = b := by
  cases t <;> simp_all [RubyRequestType.isRead, blockedAfter]

theorem RubyRequestType.isRead_of_kind_read (h : t.kind = .read) :
    t.isRead = true := by
  cases t <;> simp_all [RubyRequestType.isRead]

theorem msi_own (h : l.Ok) (ht : m.type ≠ .PUTM)
    (hx : l.trigger msi c (.request i m) m.type.ownEvent = some x) : Msi.Own c l i m x := by
  obtain ⟨t, hp, rfl⟩ := L1.trigger_eq_some hx
  have hl := h.live
  cases hm : m.type <;> rw [hm] at hp
  case PUTM => exact absurd hm ht
  case GETS | GETI =>
    cases hs : l.state <;> rw [hs] at hp hl <;> cases hp <;> try cases hl
    case IS_AD.refl => exact .read hs (by simp [hm]) (by simp)
    case IS_A.refl =>
      obtain ⟨-, r, hr, hk⟩ := h.exists_request (by simp [hs])
      rw [hs] at hk
      have hna := h.not_atomic (by simp [hs])
      refine .share r hs (by simp [hm]) hr hk ?_
      simp [RubyRequestType.isRead_of_kind_read hk, hr, hna, h.stalledWB]
  case GETM =>
    cases hs : l.state <;> rw [hs] at hp hl <;> cases hp <;> try cases hl
    case IM_AD.refl => exact .write hs hm (by simp)
    case IM_A.refl =>
      obtain ⟨-, r, hr, hk⟩ := h.exists_request (by simp [hs])
      rw [hs] at hk
      obtain ⟨hnr, hb⟩ := RubyRequestType.isRead_of_kind hk
      have hna := h.not_atomic (by simp [hs])
      refine .modify r hs hm hr hk ?_
      simp [hr, hnr, hb, hna, h.stalledWB]
    all_goals exact .rewrite (by simp [hs]) hm (by simp [hs])
  case UPG =>
    cases hs : l.state <;> rw [hs] at hp hl <;> cases hp <;> try cases hl
    case SM_W.refl =>
      obtain ⟨-, r, hr, hk⟩ := h.exists_request (by simp [hs])
      rw [hs] at hk
      obtain ⟨hnr, hb⟩ := RubyRequestType.isRead_of_kind hk
      have hna := h.not_atomic (by simp [hs])
      refine .upgrade r hs hm hr hk ?_
      simp [hr, hnr, hb, hna, h.stalledWB]
    case IM_W.refl => exact .lostUpgrade hs hm (by simp)
    case SM_WL.refl =>
      obtain ⟨-, r, hr, hk⟩ := h.exists_request (by simp [hs])
      rw [hs] at hk
      have hrt := RubyRequestType.kind_eq_lockedRead.mp hk
      refine .lockedUpgrade hs hm ⟨r, hr, hrt⟩ ?_
      simp [SequencerRequest.apply, RubyRequestType.isRead, RubyRequestType.setsData, handleLlsc,
        blockedAfter, hr, hrt]
    case IM_WL.refl => exact .lostLockedUpgrade hs hm (by simp)

/-- The outcomes of seeing the own PUTM. -/
inductive Msi.OwnWB (l : L1 n β) (i : ℕ) (x : Firing n β) : Prop
  | invalidate (hs : l.state = .MI_A)
      (hx : x = {
        line := { l with
          state := .I, valid := false, isAtomic := false, locked := false, tbe := none
          requestToCacheWB := l.requestToCacheWB.eraseIdx i
          requestToCache := l.requestToCache ++ l.woken, stalled := l.orphans, waiting := none }
        wb := [l.dataBlk] })
  | share (hs : l.state = .MS_A)
      (hx : x = {
        line := { l with
          state := .S, tbe := none
          requestToCacheWB := l.requestToCacheWB.eraseIdx i
          requestToCache := l.requestToCache ++ l.woken, stalled := l.orphans, waiting := none }
        wb := [l.dataBlk] })

theorem msi_ownWB (h : l.Ok) (ht : m.type = .PUTM)
    (hx : l.trigger msi c (.requestWB i m) m.type.ownEvent = some x) : Msi.OwnWB l i x := by
  rw [ht] at hx
  obtain ⟨t, hp, rfl⟩ := L1.trigger_eq_some hx
  have hl := h.live
  cases hs : l.state <;> rw [hs] at hp hl <;> cases hp <;> try cases hl
  case MI_A.refl =>
    refine .invalidate hs ?_
    simp [h.stalledWB]
  case MS_A.refl =>
    have hna := h.not_atomic (by simp [hs])
    refine .share hs ?_
    simp [hna, h.stalledWB]

/-! ## Data -/

/-- The states that wait for data, and what they become when it arrives. -/
inductive Msi.Response (c : Fin n) (l : L1 n β) (i : ℕ) (m : ResponseMsg β) (x : Firing n β) :
    Prop
  | ignore (hs : l.state.pending = .none)
      (hx : x = { line := { l with
        responseToCache := l.responseToCache.eraseIdx i
        locked := l.locked && decide (l.state ≠ .I) } })
  /-- The data has overtaken the request it answers. -/
  | early (s' : CacheState) (hs : l.state = .IS_AD ∧ s' = .IS_A ∨ l.state = .IM_AD ∧ s' = .IM_A)
      (hx : x = { line := { l with
        state := s', dataBlk := m.dataBlk, tbe := none
        responseToCache := l.responseToCache.eraseIdx i } })
  | share (r : SequencerRequest β) (hs : l.state = .IS_D) (hr : l.request = some r)
      (hk : r.type.kind = .read)
      (hx : x = {
        line := { l with
          state := .S, dataBlk := m.dataBlk, request := none, tbe := none
          responseToCache := l.responseToCache.eraseIdx i
          requestToCache := l.requestToCache ++ l.woken, stalled := l.orphans, waiting := none }
        callbacks := [⟨c, r.type, false, l.pos, m.dataBlk, true⟩] })
  | readOnce (r : SequencerRequest β) (hs : l.state = .IS_DI) (hr : l.request = some r)
      (hk : r.type.kind = .read)
      (hx : x = {
        line := { l with
          state := .I, valid := false, isAtomic := false, locked := false
          dataBlk := m.dataBlk, request := none, tbe := none
          responseToCache := l.responseToCache.eraseIdx i
          requestToCache := l.requestToCache ++ l.woken, stalled := l.orphans, waiting := none }
        callbacks := [⟨c, r.type, false, l.pos, m.dataBlk, true⟩] })
  | modify (r : SequencerRequest β) (hs : l.state = .IM_D) (hr : l.request = some r)
      (hk : r.type.kind = .write)
      (hx : x = {
        line := { l with
          state := .M, dataBlk := r.apply m.dataBlk, request := none, tbe := none
          locked := (handleLlsc r.type l.locked).2
          responseToCache := l.responseToCache.eraseIdx i
          requestToCache := l.requestToCache ++ l.woken, stalled := l.orphans, waiting := none }
        callbacks := [⟨c, r.type, false, l.pos, r.apply m.dataBlk,
          (handleLlsc r.type l.locked).1⟩] })
  | modifyOnce (r : SequencerRequest β) (s' : CacheState)
      (hs : l.state = .IM_DS ∧ s' = .MS_A ∨ l.state = .IM_DI ∧ s' = .MI_A)
      (hr : l.request = some r) (hk : r.type.kind = .write)
      (hx : x = {
        line := { l with
          state := s', dataBlk := r.apply m.dataBlk, request := none, tbe := none
          locked := (handleLlsc r.type l.locked).2
          requestFromCacheWB := l.requestFromCacheWB + 1
          responseToCache := l.responseToCache.eraseIdx i }
        callbacks := [⟨c, r.type, false, l.pos, r.apply m.dataBlk,
          (handleLlsc r.type l.locked).1⟩] })
  | lock (hs : l.state = .IM_DL) (hr : ∃ r, l.request = some r ∧ r.type = .Locked_RMW_Read)
      (hx : x = {
        line := { l with
          state := .M_L, dataBlk := m.dataBlk, request := none, tbe := none
          locked := false, blocked := true, isAtomic := true
          responseToCache := l.responseToCache.eraseIdx i }
        callbacks := [⟨c, .Locked_RMW_Read, true, l.pos, m.dataBlk, true⟩] })

theorem msi_response (h : l.Ok) {m : ResponseMsg β}
    (hx : l.trigger msi c (.response i m) .Data = some x) : Msi.Response c l i m x := by
  obtain ⟨t, hp, rfl⟩ := L1.trigger_eq_some hx
  by_cases hn : l.state.pending = .none
  · refine .ignore hn ?_
    rcases h.idle_cases hn with hs | hs | hs | hs | hs | hs <;> rw [hs] at hp <;> cases hp <;>
      simp [hs]
  obtain ⟨-, r, hr, hk⟩ := h.exists_request hn
  by_cases hh : l.state.holds
  · -- the read of a locked read-modify-write
    rcases hh with hs | hs <;> rw [hs] at hp hk hn
    · cases hp
      have hrt := RubyRequestType.kind_eq_lockedRead.mp hk
      refine .lock hs ⟨r, hr, hrt⟩ ?_
      simp [SequencerRequest.apply, RubyRequestType.isRead, RubyRequestType.setsData, handleLlsc,
        blockedAfter, hr, hrt]
    · exact absurd rfl hn
  have hna := h.not_atomic hh
  rcases h.pending_cases hn hh with hs | hs | hs | hs | hs | hs | hs | hs | hs | hs | hs | hs | hs
  all_goals
    rw [hs] at hp hk
    cases hp
  · exact .early .IS_A (by simp [hs]) (by simp)
  · exact .early .IM_A (by simp [hs]) (by simp)
  · refine .share r hs hr hk ?_
    simp [RubyRequestType.isRead_of_kind_read hk, hr, hna, h.stalledWB]
  · refine .readOnce r hs hr hk ?_
    simp [RubyRequestType.isRead_of_kind_read hk, hr, h.stalledWB]
  · obtain ⟨hnr, hb⟩ := RubyRequestType.isRead_of_kind hk
    refine .modify r hs hr hk ?_
    simp [hnr, hb, hr, hna, h.stalledWB]
  · obtain ⟨hnr, hb⟩ := RubyRequestType.isRead_of_kind hk
    refine .modifyOnce r .MS_A (by simp [hs]) hr hk ?_
    simp [hnr, hb, hr]
  · obtain ⟨hnr, hb⟩ := RubyRequestType.isRead_of_kind hk
    refine .modifyOnce r .MI_A (by simp [hs]) hr hk ?_
    simp [hnr, hb, hr]

/-! ## Atomic messages -/

/-- An atomic message only moves the counter. -/
theorem msi_atomic (h : l.Ok) {t : AtomicRequestType}
    (hx : l.trigger msi c (.atomic i) t.event = some x) :
    x = { line := { l with
      isBlocked := l.isBlocked + (if t = .GETMATOMICST then 1 else -1)
      atomicRequestToCache := l.atomicRequestToCache.eraseIdx i
      locked := l.locked && decide (l.state ≠ .I) } } := by
  obtain ⟨p, hp, rfl⟩ := L1.trigger_eq_some hx
  have htab : ∀ s : CacheState, s.live = true → ∀ t : AtomicRequestType, ∀ p ∈ msiCache s t.event,
      p = (s, [if t = .GETMATOMICST then .setBlocked else .setUnblocked,
        .l_popAtomicRequestQueue]) := by
    intro s hl t
    cases t <;> revert s <;> decide +kernel
  have hNP : l.state ≠ .NP := by
    intro hs
    have := h.live
    rw [hs] at this
    cases this
  obtain rfl := htab l.state h.live t p hp
  cases t <;> simp [hNP, Int.sub_eq_add_neg]

/-! ## The facts are kept -/

omit [Inhabited β] in
/-- A new request meets an idle line. -/
theorem L1.Ok.issue (h : l.Ok) (r : SequencerRequest β) (hr : l.request = none)
    (hb : l.blocked = (r.type == .Locked_RMW_Write)) :
    L1.Ok { l with request := some r, inMandatoryQueue := true } := by
  have hreq := h.request
  simp only [L1.RequestOk, hr] at hreq
  refine { h with request := ?_ }
  simp only [L1.RequestOk, if_true]
  refine ⟨hreq.2, ?_⟩
  rw [← h.blocked, hb, beq_iff_eq]

theorem Msi.Processor.ok {r : SequencerRequest β} (hx : Msi.Processor c l r x) (h : l.Ok)
    (hr : l.request = some r) : x.line.Ok := by
  have hb := h.blocked
  have hv := h.valid
  have ha := h.atomic
  cases hx with
  | stall hs hx =>
    subst hx
    exact { h with }
  | readMiss t hs hk ht hx | writeMiss hs hk hx | upgrade hs hk hx =>
    have hna : l.isAtomic = false := h.not_atomic (by simp [hs])
    constructor <;>
      simp_all [L1.RequestOk, h.stalledWB]
  | lockedMiss hs hk hx | lockedUpgrade hs hk hx =>
    constructor <;>
      simp_all [L1.RequestOk, h.stalledWB]
  | readHit hs hk hx =>
    subst hx
    have hp : l.state.pending = .none := by
      rcases hs with hs | hs | hs <;> simp [hs]
    exact { h with request := ⟨rfl, hp⟩ }
  | writeHit hs hk hx =>
    subst hx
    have hp : l.state.pending = .none := by
      rcases hs with hs | hs <;> simp [hs]
    exact { h with request := ⟨rfl, hp⟩ }
  | lockedHit hs hk hx =>
    constructor <;>
      simp_all [L1.RequestOk, h.stalledWB]
  | unlock hs hk hx =>
    constructor <;> simp_all [L1.RequestOk, h.stalledWB]

omit [Inhabited β] in
theorem Msi.Replacement.ok (hx : Msi.Replacement l x) (h : l.Ok) (hr : l.request = none) :
    x.line.Ok := by
  have hb := h.blocked
  have hv := h.valid
  have hreq := h.request
  cases hx with
  | stall hs hx =>
    subst hx
    exact { h with }
  | evictShared hs hx | writeBack hs hx =>
    subst hx
    have hna : l.isAtomic = false := h.not_atomic (by simp [hs])
    constructor <;> simp_all [L1.RequestOk, h.stalledWB]

/-- Seeing a request of another core changes neither the kind of request waited for nor
whether the line is held or locked. -/
theorem msiSnooped_spec : ∀ (s : CacheState) (t : CoherenceRequestType), s.live = true →
    (msiSnooped s t).live = true ∧ (msiSnooped s t).pending = s.pending ∧
      (msiSnooped s t = .M_L ↔ s = .M_L) ∧ (msiSnooped s t = .IM_DL ↔ s = .IM_DL) := by
  intro s t hl
  cases t <;> revert s <;> decide +kernel

omit [Inhabited β] in
/-- `RequestOk` depends on the state only through what `msiSnooped_spec` keeps. -/
theorem L1.RequestOk.of_state {l' : L1 n β} (h : l.RequestOk) (hr : l'.request = l.request)
    (hq : l'.inMandatoryQueue = l.inMandatoryQueue) (hp : l'.state.pending = l.state.pending)
    (hL : l'.state = .M_L ↔ l.state = .M_L) : l'.RequestOk := by
  unfold L1.RequestOk at h ⊢
  rw [hr, hq, hp, hL]
  exact h

omit [Inhabited β] in
theorem Msi.Snoop.ok (hx : Msi.Snoop l i m x) (h : l.Ok) :
    x.line.Ok := by
  have hb := h.blocked
  have hv := h.valid
  have ha : ¬ l.state.holds → l.isAtomic = false := h.not_atomic
  obtain ⟨hlive, hp, hL, hDL⟩ := msiSnooped_spec l.state m.type h.live
  cases hx with
  | stall hs hx =>
    subst hx
    exact { h with }
  | writeBack hs hx =>
    subst hx
    have hv' := (msiSnooped_valid l.state m.type h.live (by simp [hs])).2
    rw [hs] at hlive hp hL hDL ha hv'
    exact {
      live := hlive
      valid := by simp [hv, hs, hv']
      atomic := by simp [ha (by simp [CacheState.holds])]
      blocked := by simp [hL, hb, hs]
      request := h.request.of_state rfl rfl (by rw [hs]; exact hp) (by simp [hL, hs])
      stalledWB := h.stalledWB }
  | invalidate hs ht hx =>
    subst hx
    exact {
      live := rfl
      valid := rfl
      atomic := by simp
      blocked := by simp [hb, hs]
      request := h.request.of_state rfl rfl (by simp [hs]) (by simp [hs])
      stalledWB := h.stalledWB }
  | pop hs hM hS hx =>
    subst hx
    have hv' := (msiSnooped_valid l.state m.type h.live (fun hs => by
      rcases hS hs with h | h <;> simp [h])).2
    exact {
      live := hlive
      valid := by simp [hv, hv']
      atomic := by simp [ha hs]
      blocked := by simp [hL, hb]
      request := h.request.of_state rfl rfl hp hL
      stalledWB := h.stalledWB }

omit [Inhabited β] in
/-- Seeing another core's PUTM. -/
theorem L1.Ok.snoopWB (h : l.Ok) (i : ℕ) (k : Bool) :
    L1.Ok { l with
      state := msiSnooped l.state .PUTM, requestToCacheWB := l.requestToCacheWB.eraseIdx i
      locked := k } := by
  obtain ⟨hlive, hp, hL, hDL⟩ := msiSnooped_spec l.state .PUTM h.live
  have hh : (msiSnooped l.state .PUTM).holds ↔ l.state.holds := by
    unfold CacheState.holds
    rw [hL, hDL]
  have hv := (msiSnooped_valid l.state .PUTM h.live (by simp)).2
  exact {
    live := hlive
    valid := by simp [h.valid, hv]
    atomic := fun ha => hh.mpr (h.atomic ha)
    blocked := by simp [hL, h.blocked]
    request := h.request.of_state rfl rfl hp hL
    stalledWB := h.stalledWB }

omit [Inhabited β] in
/-- A line that is not held moves to a state in which it is not locked. -/
theorem L1.Ok.move {l' : L1 n β} (h : l.Ok) (hs : ¬ l.state.holds) (hlive : l'.state.live = true)
    (hL : l'.state ≠ .M_L) (hv : l'.valid = decide (l'.state ≠ .I))
    (ha : l'.isAtomic = true → l.isAtomic = true) (hb : l'.blocked = l.blocked)
    (hreq : l'.RequestOk) (hWB : l'.stalledWB = l.stalledWB) : l'.Ok where
  live := hlive
  valid := hv
  atomic := fun ht => absurd (h.atomic (ha ht)) hs
  blocked := by
    rw [hb, h.blocked]
    exact iff_of_false (fun hl => hs (.inr hl)) hL
  request := hreq
  stalledWB := hWB.trans h.stalledWB

omit [Inhabited β] in
theorem Msi.Own.ok (hx : Msi.Own c l i m x) (h : l.Ok) : x.line.Ok := by
  have hv := h.valid
  have hreq := h.request
  cases hx with
  | read hs ht hx | write hs ht hx | lostUpgrade hs ht hx | lostLockedUpgrade hs ht hx =>
    subst hx
    rw [hs] at hv
    exact h.move (by simp [hs]) rfl (by simp) hv id rfl
      (hreq.of_state rfl rfl (by simp [hs]) (by simp [hs])) rfl
  | rewrite hs ht hx =>
    subst hx
    exact { h with }
  | share r hs ht hr hk hx | modify r hs ht hr hk hx | upgrade r hs ht hr hk hx =>
    subst hx
    obtain ⟨hq, -⟩ := h.exists_request (by simp [hs])
    rw [hs] at hv
    exact h.move (by simp [hs]) rfl (by simp) hv id rfl ⟨hq, rfl⟩ rfl
  | lockedUpgrade hs ht hr hx =>
    subst hx
    obtain ⟨hq, -⟩ := h.exists_request (by simp [hs])
    rw [hs] at hv
    exact {
      live := rfl
      valid := hv
      atomic := by simp
      blocked := by simp
      request := ⟨hq, rfl⟩
      stalledWB := h.stalledWB }

omit [Inhabited β] in
theorem Msi.OwnWB.ok (hx : Msi.OwnWB l i x) (h : l.Ok) : x.line.Ok := by
  have hv := h.valid
  cases hx with
  | invalidate hs hx | share hs hx =>
    subst hx
    rw [hs] at hv
    exact h.move (by simp [hs]) rfl (by simp) (by simp [hv]) (by simp) rfl
      (h.request.of_state rfl rfl (by simp [hs]) (by simp [hs])) rfl

omit [Inhabited β] in
theorem Msi.Response.ok {m : ResponseMsg β} (hx : Msi.Response c l i m x) (h : l.Ok) :
    x.line.Ok := by
  have hv := h.valid
  cases hx with
  | ignore hs hx =>
    subst hx
    exact { h with }
  | early s' hs hx =>
    subst hx
    obtain ⟨hs, rfl⟩ | ⟨hs, rfl⟩ := hs
    all_goals
      rw [hs] at hv
      exact h.move (by simp [hs]) rfl (by simp) hv id rfl
        (h.request.of_state rfl rfl (by simp [hs]) (by simp [hs])) rfl
  | share r hs hr hk hx | readOnce r hs hr hk hx | modify r hs hr hk hx =>
    subst hx
    obtain ⟨hq, -⟩ := h.exists_request (by simp [hs])
    rw [hs] at hv
    exact h.move (by simp [hs]) rfl (by simp) (by simp [hv]) (by simp) rfl ⟨hq, rfl⟩ rfl
  | modifyOnce r s' hs hr hk hx =>
    subst hx
    obtain ⟨hs, rfl⟩ | ⟨hs, rfl⟩ := hs
    all_goals
      obtain ⟨hq, -⟩ := h.exists_request (by simp [hs])
      rw [hs] at hv
      exact h.move (by simp [hs]) rfl (by simp) hv id rfl ⟨hq, rfl⟩ rfl
  | lock hs hr hx =>
    subst hx
    obtain ⟨hq, -⟩ := h.exists_request (by simp [hs])
    rw [hs] at hv
    exact {
      live := rfl
      valid := hv
      atomic := by simp
      blocked := by simp
      request := ⟨hq, rfl⟩
      stalledWB := h.stalledWB }

end Transitions
