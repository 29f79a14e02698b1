/-
# The time-division bus

The throttles of the four cores and of the shared memory in front of the
central switch, with the wakeup events that drive them.  Between two wakeups
anything may happen to the queues, so each wakeup gets them as an argument.

A `Consumer` keeps the ticks it has scheduled in `m_scheduled_wakeups` until
they are past, so it is woken at most once in a cycle: this is what makes "one
slot start" one wakeup.  All of the network runs on one clock, and ticks are
counted in its cycles.
-/
import Gem5.Throttle

open List

/-! ## Events -/

/-- `m_scheduled_wakeups` and the wakeup events in the event queue. -/
structure Consumer where
  scheduledWakeups : List ℕ := []
  events : List ℕ := []

/-- `scheduleEventAbsolute(evt_time)` at the time `now`. -/
def Consumer.scheduleEventAbsolute (c : Consumer) (now evtTime : ℕ) : Consumer :=
  if evtTime ∈ c.scheduledWakeups then
    { c with scheduledWakeups := c.scheduledWakeups.filter fun t => decide (now ≤ t) }
  else
    { scheduledWakeups := (evtTime :: c.scheduledWakeups).filter fun t => decide (now ≤ t)
      events := evtTime :: c.events }

/-- A message put on the bus: by which throttle and when, and on which network. -/
structure Forwarded where
  throttle : Fin 5
  cycle : ℕ
  vnet : ℕ
  msg : NetworkMessage

namespace Forwarded

/-- A core's request or write-back that is not a side packet. -/
def Ordinary (f : Forwarded) : Prop :=
  f.throttle.val < 4 ∧ (f.vnet = 2 ∨ f.vnet = 6) ∧ f.msg.isSidePacket = false

end Forwarded

/-- The bus: the throttles 0 to 3 of the cores and 4 of the memory. -/
structure TdmBus where
  now : ℕ := 0
  throttles : Fin 5 → Throttle
  consumers : Fin 5 → Consumer := fun _ => {}
  log : List Forwarded := []

/-- What happens to the bus. -/
inductive BusOp
  /-- A message arrives at a queue of the throttle. -/
  | schedule (i : Fin 5) (evtTime : ℕ)
  /-- A wakeup event of the throttle, with the queues as they are then. -/
  | wakeup (i : Fin 5) (receiver : ClockedObject) (sender : Sender)
      (input output : ℕ → Option NetworkQueue)
  /-- Time passes, once all earlier events are done. -/
  | advance (t : ℕ)

namespace TdmBus

/-- The throttles as `Topology` makes them: `m_sID` is the number, the outputs go to switch 5. -/
def create (vnets linkLatency linkBandwidth : Fin 5 → ℕ) : TdmBus where
  throttles := fun i =>
    { sID := i.val
      switchID := some 5
      vnets := vnets i
      linkLatency := linkLatency i
      linkBandwidth := linkBandwidth i }

/-- The token of the core whose slot is running. -/
def ownerToken (b : TdmBus) : Bool :=
  (getSlotOwner b.now).any fun i => (b.throttles (Fin.ofNat 5 i)).vToken

/-- A wakeup at the end of its event: the throttle, the next event and the log. -/
def woken (b : TdmBus) (i : Fin 5) (w : ThrottlePass) : TdmBus :=
  let c := { b.consumers i with events := (b.consumers i).events.erase b.now }
  { b with
    throttles := Function.update b.throttles i w.throttle
    consumers := Function.update b.consumers i
      (if 0 < w.bwRemaining ∧ ¬ w.scheduleWakeup then c
        else c.scheduleEventAbsolute b.now (b.now + 1))
    log := b.log ++ w.forwarded.map fun f => ⟨i, b.now, f.1, f.2⟩ }

/-- One event. -/
def step (b : TdmBus) : BusOp → Except Abort TdmBus
  | .schedule i evtTime =>
    if b.now ≤ evtTime then
      .ok { b with
        consumers := Function.update b.consumers i
          ((b.consumers i).scheduleEventAbsolute b.now evtTime) }
    else .error .assertion
  | .wakeup i receiver sender input output =>
    if b.now ∈ (b.consumers i).events then do
      let w ← (b.throttles i).wakeup ⟨b.now, receiver, sender⟩ input output
      pure (b.woken i w)
    else .error .undefined
  | .advance t =>
    if b.now < t ∧ ∀ i, ∀ e ∈ (b.consumers i).events, t ≤ e then .ok { b with now := t }
    else .error .undefined

/-! ## One wakeup in a cycle -/

/-- Every pending event is in the future and recorded, once. -/
structure Scheduled (now : ℕ) (c : Consumer) : Prop where
  future : ∀ t ∈ c.events, now ≤ t ∧ t ∈ c.scheduledWakeups
  nodup : c.events.Nodup

theorem Scheduled.schedule {now evtTime : ℕ} {c : Consumer} (h : Scheduled now c)
    (ht : now ≤ evtTime) : Scheduled now (c.scheduleEventAbsolute now evtTime) := by
  unfold Consumer.scheduleEventAbsolute
  split
  · refine ⟨fun t htc => ?_, h.nodup⟩
    obtain ⟨hle, hmem⟩ := h.future t htc
    exact ⟨hle, mem_filter.mpr ⟨hmem, decide_eq_true hle⟩⟩
  · rename_i hnew
    constructor
    · intro t htc
      rcases mem_cons.mp htc with rfl | htc
      · exact ⟨ht, mem_filter.mpr ⟨mem_cons_self, decide_eq_true ht⟩⟩
      · obtain ⟨hle, hmem⟩ := h.future t htc
        exact ⟨hle, mem_filter.mpr ⟨mem_cons_of_mem _ hmem, decide_eq_true hle⟩⟩
    · exact nodup_cons.mpr ⟨fun hmem => hnew (h.future _ hmem).2, h.nodup⟩

/-- A tick that is recorded and no longer pending stays so. -/
theorem done_schedule {now evtTime t : ℕ} {c : Consumer} (ht : now ≤ t)
    (h : t ∈ c.scheduledWakeups ∧ t ∉ c.events) :
    t ∈ (c.scheduleEventAbsolute now evtTime).scheduledWakeups ∧
      t ∉ (c.scheduleEventAbsolute now evtTime).events := by
  unfold Consumer.scheduleEventAbsolute
  split
  · exact ⟨mem_filter.mpr ⟨h.1, decide_eq_true ht⟩, h.2⟩
  · rename_i hnew
    refine ⟨mem_filter.mpr ⟨mem_cons_of_mem _ h.1, decide_eq_true ht⟩, ?_⟩
    intro hmem
    rcases mem_cons.mp hmem with rfl | hmem
    · exact hnew h.1
    · exact h.2 hmem

/-! ## The invariant -/

/-- The throttles are what they were made as, events are unique, and the log keeps to the slots. -/
structure Disciplined (b : TdmBus) : Prop where
  sID : ∀ i, (b.throttles i).sID = i.val
  switchID : ∀ i, (b.throttles i).switchID = some 5
  scheduled : ∀ i, Scheduled b.now (b.consumers i)
  past : ∀ f ∈ b.log, f.cycle ≤ b.now
  done : ∀ f ∈ b.log, f.cycle = b.now → b.now ∈ (b.consumers f.throttle).scheduledWakeups ∧
    b.now ∉ (b.consumers f.throttle).events
  inSlot : ∀ f ∈ b.log, f.Ordinary → f.cycle % (NPROC * SLOT_WIDTH) = f.throttle.val * SLOT_WIDTH
  oneVnet : ∀ f ∈ b.log, ∀ g ∈ b.log, f.Ordinary → g.Ordinary → f.throttle = g.throttle →
    f.cycle = g.cycle → f.vnet = g.vnet

theorem disciplined_create (vnets linkLatency linkBandwidth : Fin 5 → ℕ) :
    (create vnets linkLatency linkBandwidth).Disciplined where
  sID := fun _ => rfl
  switchID := fun _ => rfl
  scheduled := fun _ => ⟨by simp [create], by simp [create]⟩
  past := by simp [create]
  done := by simp [create]
  inSlot := by simp [create]
  oneVnet := by simp [create]

/-- What one wakeup adds to the log. -/
theorem wakeup_spec {b : TdmBus} {i : Fin 5} {now : WakeupTime}
    {input output : ℕ → Option NetworkQueue} {w : ThrottlePass} (hb : b.Disciplined)
    (h : (b.throttles i).wakeup now input output = .ok w) :
    w.throttle.sID = i.val ∧ w.throttle.switchID = some 5 ∧
      (isStartOfSlot now.curCycle = false → w.throttle.vToken = (b.throttles i).vToken) ∧
      (i.val < 4 → ∀ f ∈ w.forwarded, ThrottlePass.Ordinary f →
        now.curCycle % (NPROC * SLOT_WIDTH) = i.val * SLOT_WIDTH ∧
          w.throttle.vToken = decide (f.1 = 6)) := by
  unfold Throttle.wakeup at h
  split at h
  · obtain ⟨hs, hsw, hv⟩ := ThrottlePass.operateBelow_ids _ h
    refine ⟨hs.trans (hb.sID i), hsw.trans (hb.switchID i), hv, fun hi f hf hord => ?_⟩
    obtain ⟨-, -, -, new, hnew, hok⟩ := ThrottlePass.operateBelow_core (b.throttles i).vnets
      (by rw [hb.sID i]; exact hi) (hb.switchID i) h
    rw [hnew] at hf
    obtain ⟨howner, hstart, htoken⟩ := (hok f hf).2 hord
    refine ⟨?_, htoken⟩
    have hmod := mod_eq_of_isStartOfSlot hstart howner
    rwa [hb.sID i] at hmod
  · cases h

/-- The consumer after its event: the cycle is recorded and no longer pending. -/
theorem consumer_woken {b : TdmBus} {i : Fin 5} (hb : b.Disciplined)
    (hev : b.now ∈ (b.consumers i).events) (w : ThrottlePass) :
    Scheduled b.now ((b.woken i w).consumers i) ∧
      b.now ∈ ((b.woken i w).consumers i).scheduledWakeups ∧
      b.now ∉ ((b.woken i w).consumers i).events := by
  have hs := hb.scheduled i
  have herase : Scheduled b.now
      { b.consumers i with events := (b.consumers i).events.erase b.now } :=
    ⟨fun t ht => hs.future t (mem_of_mem_erase ht), hs.nodup.erase _⟩
  have hdone : b.now ∈ (b.consumers i).scheduledWakeups ∧
      b.now ∉ (b.consumers i).events.erase b.now :=
    ⟨(hs.future _ hev).2, hs.nodup.not_mem_erase⟩
  simp only [woken, Function.update_self]
  split
  · exact ⟨herase, hdone⟩
  · exact ⟨herase.schedule (Nat.le_succ _), done_schedule le_rfl hdone⟩

theorem Disciplined.woken {b : TdmBus} {i : Fin 5} {receiver : ClockedObject} {sender : Sender}
    {input output : ℕ → Option NetworkQueue} {w : ThrottlePass} (hb : b.Disciplined)
    (hev : b.now ∈ (b.consumers i).events)
    (h : (b.throttles i).wakeup ⟨b.now, receiver, sender⟩ input output = .ok w) :
    (b.woken i w).Disciplined := by
  obtain ⟨hs, hsw, -, hslot⟩ := wakeup_spec hb h
  obtain ⟨hsched, hdone⟩ := consumer_woken hb hev w
  -- the throttle has not been woken in this cycle before
  have hfresh : ∀ f ∈ b.log, f.throttle = i → f.cycle ≠ b.now := by
    rintro f hf rfl hcycle
    exact (hb.done f hf hcycle).2 hev
  have hlog : ∀ f ∈ (b.woken i w).log, f ∈ b.log ∨
      (f.throttle = i ∧ f.cycle = b.now ∧ (f.vnet, f.msg) ∈ w.forwarded) := by
    intro f hf
    rcases mem_append.mp hf with hf | hf
    · exact .inl hf
    · obtain ⟨x, hx, rfl⟩ := mem_map.mp hf
      exact .inr ⟨rfl, rfl, hx⟩
  -- what an ordinary message of this wakeup says about the cycle and the token
  have hnew : ∀ f : Forwarded, f.throttle = i → (f.vnet, f.msg) ∈ w.forwarded → f.Ordinary →
      b.now % (NPROC * SLOT_WIDTH) = i.val * SLOT_WIDTH ∧ w.throttle.vToken = decide (f.vnet = 6) := by
    rintro f rfl hf ⟨hcore, hord⟩
    exact hslot hcore _ hf hord
  refine ⟨?_, ?_, ?_, ?_, ?_, ?_, ?_⟩
  · intro j
    rcases eq_or_ne j i with rfl | hj
    · simpa [TdmBus.woken] using hs
    · simpa [TdmBus.woken, hj] using hb.sID j
  · intro j
    rcases eq_or_ne j i with rfl | hj
    · simpa [TdmBus.woken] using hsw
    · simpa [TdmBus.woken, hj] using hb.switchID j
  · intro j
    rcases eq_or_ne j i with rfl | hj
    · exact hsched
    · simpa [TdmBus.woken, hj] using hb.scheduled j
  · intro f hf
    rcases hlog f hf with hf | ⟨-, hcycle, -⟩
    · exact hb.past f hf
    · exact hcycle.le
  · intro f hf hcycle
    by_cases hi : f.throttle = i
    · rw [hi]
      exact hdone
    · rcases hlog f hf with hf | ⟨hfi, -, -⟩
      · simpa [TdmBus.woken, hi] using hb.done f hf hcycle
      · exact absurd hfi hi
  · intro f hf hord
    rcases hlog f hf with hf | ⟨hfi, hcycle, hf⟩
    · exact hb.inSlot f hf hord
    · rw [hcycle, hfi]
      exact (hnew f hfi hf hord).1
  · intro f hf g hg hford hgord hthrottle hcycle
    rcases hlog f hf with hf | ⟨hfi, hfc, hf⟩
    · rcases hlog g hg with hg | ⟨hgi, hgc, -⟩
      · exact hb.oneVnet f hf g hg hford hgord hthrottle hcycle
      · exact absurd (hcycle.trans hgc) (hfresh f hf (hthrottle.trans hgi))
    · rcases hlog g hg with hg | ⟨hgi, hgc, hg⟩
      · exact absurd (hcycle.symm.trans hfc) (hfresh g hg (hthrottle.symm.trans hfi))
      · -- both in this wakeup: the token decides
        have htoken := (hnew f hfi hf hford).2.symm.trans (hnew g hgi hg hgord).2
        rw [decide_eq_decide] at htoken
        have hfv := hford.2.1
        have hgv := hgord.2.1
        omega

theorem Disciplined.step {b b' : TdmBus} (hb : b.Disciplined) {op : BusOp}
    (h : b.step op = .ok b') : b'.Disciplined := by
  cases op with
  | schedule i evtTime =>
    unfold TdmBus.step at h
    dsimp only at h
    split at h
    · rename_i hle
      cases h
      refine ⟨hb.sID, hb.switchID, ?_, hb.past, ?_, hb.inSlot, hb.oneVnet⟩
      · intro j
        rcases eq_or_ne j i with rfl | hj
        · simpa using (hb.scheduled j).schedule hle
        · simpa [hj] using hb.scheduled j
      · intro f hf hcycle
        by_cases hi : f.throttle = i
        · subst hi
          simpa using done_schedule le_rfl (hb.done f hf hcycle)
        · simpa [hi] using hb.done f hf hcycle
    · cases h
  | wakeup i receiver sender input output =>
    unfold TdmBus.step at h
    dsimp only at h
    split at h
    · rename_i hev
      obtain ⟨w, hw, rfl⟩ := Except.bind_pure_eq_ok h
      exact hb.woken hev hw
    · cases h
  | advance t =>
    unfold TdmBus.step at h
    dsimp only at h
    split at h
    · rename_i hadv
      cases h
      refine ⟨hb.sID, hb.switchID, ?_, ?_, ?_, hb.inSlot, hb.oneVnet⟩
      · exact fun i => ⟨fun e he => ⟨hadv.2 i e he, ((hb.scheduled i).future e he).2⟩,
          (hb.scheduled i).nodup⟩
      · intro f hf
        exact (hb.past f hf).trans hadv.1.le
      · -- nothing has been sent in the new cycle yet
        intro f hf hcycle
        have := hb.past f hf
        exact absurd hcycle (by show f.cycle ≠ t; omega)
    · cases h

theorem disciplined_of_runs {vnets linkLatency linkBandwidth : Fin 5 → ℕ} {ops : List BusOp}
    {b : TdmBus} {ok : TdmBus → BusOp → Prop}
    (h : Runs (Within step ok) (create vnets linkLatency linkBandwidth) ops b) : b.Disciplined :=
  h.invariant (fun _ _ _ hb hstep => hb.step hstep.2) (disciplined_create _ _ _)

end TdmBus

/-- **Exclusivity of the bus.**  In every run, a core's ordinary message is forwarded at the start
of the core's own slot; two ordinary messages of one cycle come from one core and from one of its
two networks. -/
theorem tdm_exclusive {vnets linkLatency linkBandwidth : Fin 5 → ℕ} {ops : List BusOp} {b : TdmBus}
    (h : Runs (Within TdmBus.step Anytime) (.create vnets linkLatency linkBandwidth) ops b) :
    (∀ f ∈ b.log, f.Ordinary → f.cycle % (NPROC * SLOT_WIDTH) = f.throttle.val * SLOT_WIDTH) ∧
      ∀ f ∈ b.log, ∀ g ∈ b.log, f.Ordinary → g.Ordinary → f.cycle = g.cycle →
        f.throttle = g.throttle ∧ f.vnet = g.vnet := by
  have hb := TdmBus.disciplined_of_runs h
  refine ⟨hb.inSlot, fun f hf g hg hford hgord hcycle => ?_⟩
  have hthrottle : f.throttle = g.throttle := by
    have hfs := hb.inSlot f hf hford
    have hgs := hb.inSlot g hg hgord
    rw [hcycle, hgs] at hfs
    apply Fin.ext
    simp only [SLOT_WIDTH] at hfs
    omega
  exact ⟨hthrottle, hb.oneVnet f hf g hg hford hgord hthrottle hcycle⟩

/-! ## The memory's answers -/

namespace TdmBus

/-- In the running slot the memory has sent only if the token of the slot's owner is on demand. -/
def MemorySilent (b : TdmBus) : Prop :=
  ∀ f ∈ b.log, f.throttle.val = 4 → f.cycle / SLOT_WIDTH = b.now / SLOT_WIDTH →
    b.ownerToken = false

instance (b : TdmBus) : Decidable b.MemorySilent :=
  inferInstanceAs (Decidable (∀ f ∈ b.log, _))

/-- When the memory's throttle wakes in a slot whose owner has the write-back token, it has no
ready message for the owner.  When the owner wakes where its slot starts, and so decides on the
token, the memory's throttle has not sent in this cycle yet. -/
def MemoryQuiet (b : TdmBus) : BusOp → Prop
  | .wakeup i receiver sender input _ =>
    (i.val = 4 → b.ownerToken = true → ∀ vnet < (b.throttles i).vnets, ∀ q ∈ input vnet,
      ThrottlePass.NothingForOwner ⟨b.now, receiver, sender⟩ q) ∧
    (getSlotOwner b.now = some i.val → isStartOfSlot b.now = true →
      ∀ f ∈ b.log, f.throttle.val = 4 → f.cycle ≠ b.now)
  | _ => True

instance (b : TdmBus) (op : BusOp) : Decidable (b.MemoryQuiet op) :=
  match op with
  | .wakeup _ _ _ _ _ => inferInstanceAs (Decidable ((_ → _ → _) ∧ (_ → _ → _)))
  | .schedule _ _ | .advance _ => inferInstanceAs (Decidable True)

/-- With the token on write-backs the memory's throttle forwards nothing. -/
theorem forwarded_of_quiet {b : TdmBus} (hb : b.Disciplined) {i : Fin 5} {now : WakeupTime}
    {input output : ℕ → Option NetworkQueue} {w : ThrottlePass} (hi : i.val = 4)
    (hq : ∀ vnet < (b.throttles i).vnets, ∀ q ∈ input vnet, ThrottlePass.NothingForOwner now q)
    (h : (b.throttles i).wakeup now input output = .ok w) : w.forwarded = [] := by
  unfold Throttle.wakeup at h
  split at h
  · exact ThrottlePass.operateBelow_memory _ ((hb.sID i).trans hi) (hb.switchID i) hq h
  · cases h

/-- A wakeup of another throttle, or of the owner within the slot, leaves the owner's token. -/
theorem ownerToken_woken {b : TdmBus} (hb : b.Disciplined) {i : Fin 5} {receiver : ClockedObject}
    {sender : Sender} {input output : ℕ → Option NetworkQueue} {w : ThrottlePass}
    (h : (b.throttles i).wakeup ⟨b.now, receiver, sender⟩ input output = .ok w)
    (hslot : getSlotOwner b.now = some i.val → isStartOfSlot b.now = false) :
    (b.woken i w).ownerToken = b.ownerToken := by
  have howner := getSlotOwner_eq b.now
  unfold ownerToken
  show (getSlotOwner b.now).any (fun k => (Function.update b.throttles i w.throttle
    (Fin.ofNat 5 k)).vToken) = _
  rw [howner, Option.any_some, Option.any_some]
  rcases eq_or_ne (Fin.ofNat 5 (b.now / SLOT_WIDTH % NPROC)) i with rfl | hne
  · rw [Function.update_self]
    refine (wakeup_spec hb h).2.2.1 (hslot ?_)
    rw [howner]
    refine congrArg some (Nat.mod_eq_of_lt ?_).symm
    exact (Nat.mod_lt _ (by decide)).trans (by decide)
  · rw [Function.update_of_ne hne]

theorem MemorySilent.woken {b : TdmBus} (hb : b.Disciplined) (hsilent : b.MemorySilent) {i : Fin 5}
    {receiver : ClockedObject} {sender : Sender} {input output : ℕ → Option NetworkQueue}
    {w : ThrottlePass} (hq : b.MemoryQuiet (.wakeup i receiver sender input output))
    (h : (b.throttles i).wakeup ⟨b.now, receiver, sender⟩ input output = .ok w) :
    (b.woken i w).MemorySilent := by
  intro f hf hmem hcycle
  have hcycle : f.cycle / SLOT_WIDTH = b.now / SLOT_WIDTH := hcycle
  by_cases hdecides : getSlotOwner b.now = some i.val ∧ isStartOfSlot b.now = true
  · -- the owner decides on the token, and the memory has sent nothing in this slot
    obtain ⟨howner, hstart⟩ := hdecides
    have hlt : i.val < 4 := by
      rw [getSlotOwner_eq] at howner
      exact (Option.some.inj howner).symm.trans_lt (Nat.mod_lt _ (by decide))
    rcases mem_append.mp hf with hf | hf
    · have hpast := hb.past f hf
      have hzero := mod_eq_zero_of_isStartOfSlot hstart
      have hne := hq.2 howner hstart f hf hmem
      simp only [SLOT_WIDTH] at hcycle hzero
      omega
    · obtain ⟨x, -, rfl⟩ := mem_map.mp hf
      exact absurd hmem hlt.ne
  · rw [ownerToken_woken hb h fun howner => Bool.eq_false_iff.mpr fun hstart =>
      hdecides ⟨howner, hstart⟩]
    rcases mem_append.mp hf with hf | hf
    · exact hsilent f hf hmem hcycle
    · obtain ⟨x, hx, rfl⟩ := mem_map.mp hf
      by_contra htoken
      rw [forwarded_of_quiet hb hmem (hq.1 hmem (Bool.not_eq_false _ ▸ htoken)) h] at hx
      cases hx

theorem MemorySilent.step {b b' : TdmBus} (hb : b.Disciplined) (hsilent : b.MemorySilent)
    {op : BusOp} (hq : b.MemoryQuiet op) (h : b.step op = .ok b') : b'.MemorySilent := by
  unfold TdmBus.step at h
  split at h
  · split at h
    · cases h
      exact hsilent
    · cases h
  · split at h
    · obtain ⟨w, hw, rfl⟩ := Except.bind_pure_eq_ok h
      exact hsilent.woken hb hq hw
    · cases h
  · rename_i t
    split at h
    · rename_i hadv
      cases h
      intro f hf hmem hcycle
      have hcycle : f.cycle / SLOT_WIDTH = t / SLOT_WIDTH := hcycle
      have hpast := hb.past f hf
      -- nothing has been sent in a slot that starts after now
      have hslot : b.now / SLOT_WIDTH = t / SLOT_WIDTH := by
        simp only [SLOT_WIDTH] at hcycle ⊢
        omega
      have htoken := hsilent f hf hmem (hcycle.trans hslot.symm)
      unfold ownerToken at htoken ⊢
      rw [getSlotOwner_eq, hslot] at htoken
      rw [getSlotOwner_eq]
      exact htoken
    · cases h

end TdmBus

/-- **Memory in write-back slots.**  In every run that meets `MemoryQuiet`, from the moment on that
the memory's throttle has sent in a slot, the token of the slot's owner is on demand. -/
theorem memory_silent {vnets linkLatency linkBandwidth : Fin 5 → ℕ} {ops : List BusOp} {b : TdmBus}
    (h : Runs (Within TdmBus.step TdmBus.MemoryQuiet) (.create vnets linkLatency linkBandwidth)
      ops b) : b.MemorySilent := by
  have hinv := h.invariant (P := fun b => b.Disciplined ∧ b.MemorySilent)
    (fun b op b' hb hstep => ⟨hb.1.step hstep.2, hb.2.step hb.1 hstep.1 hstep.2⟩)
    ⟨TdmBus.disciplined_create _ _ _, by simp [TdmBus.MemorySilent, TdmBus.create]⟩
  exact hinv.2

/-! ## Runs -/

/-- A queue of messages that have arrived. -/
def NetworkQueue.ofMsgs (msgs : List NetworkMessage) : NetworkQueue :=
  { MessageBuffer.create 0 1 false false with
    prioHeap := msgs.zipIdx.map fun m => ⟨0, m.2, m.1⟩ }

/-- The queues of a throttle, given the networks that are not empty. -/
def queuesOf (msgs : List (ℕ × List NetworkMessage)) (vnet : ℕ) : Option NetworkQueue :=
  some (.ofMsgs ((msgs.lookup vnet).getD []))

/-- Ten networks, and a link of 16000 units a cycle. -/
def TdmBus.default : TdmBus := .create (fun _ => 10) (fun _ => 1) fun _ => 16000

theorem tdm_exclusive_write_back :
    ∃ b, Runs (Within TdmBus.step Anytime) .default
        [.schedule 0 200, .advance 200,
          .wakeup 0 (.tick 200) (.tick 200) (queuesOf [(6, [⟨8, false, []⟩])]) (queuesOf [])] b ∧
      b.log.length = 1 ∧
      (∀ f ∈ b.log, f.Ordinary → f.cycle % (NPROC * SLOT_WIDTH) = f.throttle.val * SLOT_WIDTH) ∧
      ∀ f ∈ b.log, ∀ g ∈ b.log, f.Ordinary → g.Ordinary → f.cycle = g.cycle →
        f.throttle = g.throttle ∧ f.vnet = g.vnet := by
  refine exists_runs_and_of_execWithin (by decide +kernel) ?_
  intro b hrun _
  exact tdm_exclusive hrun

/-- Core 0 starts a write-back slot: its write-back goes out on network 6, and in the same wakeup a
side packet on network 2. -/
theorem slot_start_uses_both_vnets :
    ∃ b, Runs (Within TdmBus.step Anytime) .default
        [.schedule 0 200, .advance 200,
          .wakeup 0 (.tick 200) (.tick 200)
            (queuesOf [(6, [⟨8, false, []⟩]), (2, [⟨8, true, []⟩])]) (queuesOf [])] b ∧
      b.log.map (fun f => (f.throttle.val, f.cycle, f.vnet)) = [(0, 200, 6), (0, 200, 2)] :=
  exists_runs_of_execWithin (by decide +kernel)

theorem memory_silent_demand_slot :
    ∃ b, Runs (Within TdmBus.step TdmBus.MemoryQuiet) .default
        [.schedule 4 10, .advance 10,
          .wakeup 4 (.tick 10) (.tick 10) (queuesOf [(4, [⟨72, false, [0]⟩])]) (queuesOf [])] b ∧
      b.log.length = 1 ∧ b.MemorySilent := by
  refine exists_runs_and_of_execWithin (by decide +kernel) ?_
  intro b hrun _
  exact memory_silent hrun

/-- Core 0 has the write-back token and has blocked its own flag, which the memory's throttle does
not read: the memory's data for core 0 goes out in the same slot. -/
theorem memory_sends_in_write_back_slot :
    ∃ b, Runs (Within TdmBus.step Anytime) .default
        [.schedule 0 200, .schedule 4 201, .advance 200,
          .wakeup 0 (.tick 200) (.tick 200) (queuesOf [(6, [⟨8, false, []⟩])]) (queuesOf []),
          .advance 201,
          .wakeup 4 (.tick 201) (.tick 201) (queuesOf [(4, [⟨72, false, [0]⟩])]) (queuesOf [])] b ∧
      (b.throttles 0).vToken = true ∧ (b.throttles 0).smBlock = true ∧
      b.log.map (fun f => (f.throttle.val, f.cycle, f.msg.cores)) = [(0, 200, []), (4, 201, [0])] ∧
      ¬ b.MemorySilent :=
  exists_runs_of_execWithin (by decide +kernel)
