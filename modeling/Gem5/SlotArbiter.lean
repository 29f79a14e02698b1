/-
# The start of a core's slot

What one wakeup of a core's throttle does at the start of the core's own slot
(`Throttle::wakeup` and `operateVnet`, `src/mem/ruby/network/simple/Throttle.cc`).
One of the networks 2 (demand) and 6 (write-back) has the slot.  The wakeup gets
to it from above, and every higher network takes its share of the link's
bandwidth first; and the slot's own network first pays for what is left of its
last message, in the slots it gets and at no other time.

So the message of the slot goes out exactly if the higher networks leave
bandwidth and nothing is left of the last one (`ThrottlePass.SlotFree`); a side
packet at the front of network 2 has a second chance.

* `ThrottlePass.slotVnet`  — the network that the slot is for.
* `ThrottlePass.wants`     — the bandwidth that a network takes in a wakeup.
* `ThrottlePass.Served`    — what serving one network leaves alone.
* `WorkConserving`         — what the arbiter should do with its slot.
-/
import Gem5.TdmBus
import Mathlib

open List

open Function

/-! ## Slots by number -/

/-- The odd periods are for write-backs. -/
def isWBPeriod (curCycle : ℕ) : Bool := decide (curCycle / (NPROC * SLOT_WIDTH) % 2 = 1)

theorem getSlotOwner_of_mod_eq {t i : ℕ} (hi : i < NPROC)
    (ht : t % (NPROC * SLOT_WIDTH) = i * SLOT_WIDTH) : getSlotOwner t = some i := by
  unfold getSlotOwner
  rw [find?_range_eq_some, ht]
  refine ⟨decide_eq_true ?_, mem_range.mpr hi, fun j hj => ?_⟩
  · simp only [SLOT_WIDTH]
    omega
  · rw [Bool.not_eq_true', decide_eq_false_iff_not]
    simp only [SLOT_WIDTH]
    omega

theorem isStartOfSlot_of_mod_eq {t i : ℕ} (hi : i < NPROC)
    (ht : t % (NPROC * SLOT_WIDTH) = i * SLOT_WIDTH) : isStartOfSlot t = true := by
  unfold isStartOfSlot
  rw [any_eq_true]
  exact ⟨i, mem_range.mpr hi, beq_iff_eq.mpr ht⟩

/-- At the start of a slot the token is set by the period. -/
theorem vToken_setSlotType {h : Throttle} {t i : ℕ} (hi : i < NPROC)
    (ht : t % (NPROC * SLOT_WIDTH) = i * SLOT_WIDTH) :
    (h.setSlotType t).vToken = isWBPeriod t := by
  have hdemand : isStartDemandSlot t = true := isStartOfSlot_of_mod_eq hi ht
  have hwb : isStartWBSlot t = isWBPeriod t := by
    rw [Bool.eq_iff_iff]
    unfold isStartWBSlot isWBPeriod
    rw [any_eq_true, decide_eq_true_iff]
    simp only [NPROC, SLOT_WIDTH, mem_range, beq_iff_eq] at hi ht ⊢
    constructor
    · omega
    · intro hodd
      exact ⟨i, hi, by omega⟩
  unfold Throttle.setSlotType
  rw [hdemand, hwb]
  cases isWBPeriod t <;> rfl

/-! ## A message for an output queue -/

/-- `enqueue` at this time does not fail: the message arrives later, and not before the last one
of a strict queue. -/
def MessageBuffer.Punctual {Addr α : Type} (q : MessageBuffer Addr α) (sender : Sender)
    (delta : ℕ) : Prop :=
  delta ≠ 0 ∧ sender.clockEdge < q.arrivalTime sender delta ∧
    (q.strictFifo = true → q.lastArrival sender ≤ q.arrivalTime sender delta)

instance {Addr α : Type} (q : MessageBuffer Addr α) (sender : Sender) (delta : ℕ) :
    Decidable (q.Punctual sender delta) :=
  inferInstanceAs (Decidable (_ ∧ _))

/-- Another message can follow at the same time. -/
theorem MessageBuffer.Punctual.enqueue {Addr α : Type} {q : MessageBuffer Addr α} {sender : Sender}
    {delta : ℕ} (hq : q.Punctual sender delta) (m : α) (isRMWWrite : Bool) :
    ∃ q', q.enqueue sender m delta isRMWWrite = .ok q' ∧ q'.Punctual sender delta := by
  obtain ⟨hdelta, hlater, hstrict⟩ := hq
  unfold MessageBuffer.enqueue
  rw [if_neg (by
    rintro (h | h | ⟨hs, h⟩)
    · exact hdelta h
    · omega
    · have := hstrict hs
      omega)]
  refine ⟨_, rfl, hdelta, ?_, fun hs => ?_⟩
  · unfold MessageBuffer.arrivalTime MessageBuffer.lastArrival at hlater ⊢
    dsimp only
    split_ifs at hlater ⊢ <;> omega
  · have hstrict := hstrict hs
    unfold MessageBuffer.arrivalTime MessageBuffer.lastArrival at hstrict ⊢
    dsimp only
    split_ifs at hstrict ⊢ <;> omega

namespace ThrottlePass

variable {now : WakeupTime} {w w' w'' : ThrottlePass} {v c n : ℕ} {new new' : List NetworkMessage}

/-! ## Serving one network -/

/-- The front of the queue, if it is ready. -/
def readyFront (now : WakeupTime) (w : ThrottlePass) (v : ℕ) : List NetworkMessage :=
  if w.inReady now v then (w.peek v none).toList else []

/-- The bandwidth that a network takes in a wakeup if it can: what is left of its last message, or
the message that is ready. -/
def wants (now : WakeupTime) (w : ThrottlePass) (v : ℕ) : ℕ :=
  if (w.input v).isNone ∨ (w.output v).isNone then 0
  else if w.throttle.unitsRemaining v = 0 then
    ((w.readyFront now v).map fun m => m.bytes * MESSAGE_SIZE_MULTIPLIER).sum
  else w.throttle.unitsRemaining v

/-- From `w` to `w'` network `v` has forwarded the messages `new`, and nothing else has changed. -/
structure Served (v : ℕ) (w w' : ThrottlePass) (new : List NetworkMessage) : Prop where
  sID : w'.throttle.sID = w.throttle.sID
  switchID : w'.throttle.switchID = w.throttle.switchID
  vToken : w'.throttle.vToken = w.throttle.vToken
  linkLatency : w'.throttle.linkLatency = w.throttle.linkLatency
  input : ∀ u, u ≠ v → w'.input u = w.input u
  output : ∀ u, u ≠ v → w'.output u = w.output u
  units : ∀ u, u ≠ v → w'.throttle.unitsRemaining u = w.throttle.unitsRemaining u
  forwarded : w'.forwarded = w.forwarded ++ new.map (Prod.mk v)

theorem Served.refl (w : ThrottlePass) : Served v w w [] :=
  ⟨rfl, rfl, rfl, rfl, fun _ _ => rfl, fun _ _ => rfl, fun _ _ => rfl, (append_nil _).symm⟩

theorem Served.trans (h : Served v w w' new) (h' : Served v w' w'' new') :
    Served v w w'' (new ++ new') where
  sID := h'.sID.trans h.sID
  switchID := h'.switchID.trans h.switchID
  vToken := h'.vToken.trans h.vToken
  linkLatency := h'.linkLatency.trans h.linkLatency
  input u hu := (h'.input u hu).trans (h.input u hu)
  output u hu := (h'.output u hu).trans (h.output u hu)
  units u hu := (h'.units u hu).trans (h.units u hu)
  forwarded := by rw [h'.forwarded, h.forwarded, map_append, append_assoc]

/-- Scheduling the next wakeup is of no interest here. -/
theorem Served.schedule (h : Served v w w' new) (b : Bool) :
    Served v w { w' with scheduleWakeup := b } new :=
  ⟨h.sID, h.switchID, h.vToken, h.linkLatency, h.input, h.output, h.units, h.forwarded⟩

theorem awaitOutput_eq (now : WakeupTime) (v : ℕ) (w : ThrottlePass) :
    ∃ b, w.awaitOutput now v = { w with scheduleWakeup := b } := by
  unfold awaitOutput
  split
  · exact ⟨true, rfl⟩
  · exact ⟨w.scheduleWakeup, rfl⟩

/-- The queues of the network are there, and the output takes messages at this time. -/
def Connected (now : WakeupTime) (w : ThrottlePass) (v : ℕ) : Prop :=
  ∃ inQ outQ, w.input v = some inQ ∧ w.output v = some outQ ∧
    outQ.Punctual now.sender w.throttle.linkLatency

theorem exists_peek_of_inReady (h : w.inReady now v = true) :
    ∃ q m, w.input v = some q ∧ q.prioHeap ≠ [] ∧ w.peek v none = some m := by
  unfold inReady at h
  rcases hq : w.input v with _ | q
  · rw [hq] at h
    cases h
  · rw [hq] at h
    rcases hheap : q.prioHeap with _ | ⟨x, rest⟩
    · simp [MessageBuffer.isReady, hheap] at h
    · refine ⟨q, x.msg, rfl, ?_, ?_⟩
      · rw [hheap]
        exact cons_ne_nil x rest
      · unfold peek
        simp [hq, hheap]

theorem readyFront_ne_nil : w.readyFront now v ≠ [] ↔ w.inReady now v = true := by
  unfold readyFront
  constructor
  · intro h
    by_contra hready
    exact h (if_neg hready)
  · intro h
    obtain ⟨-, m, -, -, hm⟩ := exists_peek_of_inReady h
    rw [if_pos h, hm]
    exact cons_ne_nil m []

/-- `takeFront`: the front goes out if nothing is left of the last message. -/
theorem takeFront_served (hw : w.Connected now v) :
    ∃ w', w.takeFront now v = .ok w' ∧
      Served v w w' (if w.throttle.unitsRemaining v = 0 then w.readyFront now v else []) ∧
      w'.Connected now v ∧ w'.throttle.unitsRemaining v = w.wants now v ∧
      w'.bwRemaining = w.bwRemaining ∧
      ((if w.throttle.unitsRemaining v = 0 then w.readyFront now v else []) = [] →
        w'.input = w.input) := by
  obtain ⟨inQ, outQ, hin, hout, hpunctual⟩ := hw
  have hnull : ¬ ((w.input v).isNone ∨ (w.output v).isNone) := by
    simp [hin, hout]
  unfold takeFront wants
  rw [if_neg hnull]
  by_cases hunits : w.throttle.unitsRemaining v = 0
  · by_cases hready : w.inReady now v = true
    · obtain ⟨q, m, hq, hheap, hpeek⟩ := exists_peek_of_inReady hready
      obtain rfl := Option.some.inj (hin.symm.trans hq)
      obtain ⟨outQ', henqueue, hpunctual'⟩ := hpunctual.enqueue m false
      have hdequeue : ∃ inQ', inQ.dequeue now.receiver = .ok inQ' := ⟨_, if_neg hheap⟩
      obtain ⟨inQ', hdequeue⟩ := hdequeue
      have hfront : w.readyFront now v = [m] := by
        unfold readyFront
        rw [if_pos hready, hpeek]
        rfl
      rw [if_pos ⟨hunits, hready⟩, if_pos hunits, if_pos hunits, hfront]
      unfold serviceRequest
      rw [hin, hout, hpeek]
      dsimp only [MessageBuffer.pop]
      rw [hdequeue]
      rw [henqueue]
      refine ⟨_, rfl, ⟨rfl, rfl, rfl, rfl, fun u hu => ?_, fun u hu => ?_, fun u hu => ?_, rfl⟩,
        ⟨inQ', outQ', ?_, ?_, hpunctual'⟩, ?_, rfl, nofun⟩
      · exact update_of_ne hu _ _
      · exact update_of_ne hu _ _
      · exact update_of_ne hu _ _
      · exact update_self v _ _
      · exact update_self v _ _
      · refine (update_self v _ _).trans ?_
        rw [hunits, map_singleton, sum_singleton, zero_add]
    · have hfront : w.readyFront now v = [] := if_neg hready
      rw [if_neg fun hx => hready hx.2, if_pos hunits, if_pos hunits, hfront]
      exact ⟨w, rfl, .refl w, ⟨inQ, outQ, hin, hout, hpunctual⟩, hunits, rfl, fun _ => rfl⟩
  · rw [if_neg fun hx => hunits hx.1, if_neg hunits, if_neg hunits]
    exact ⟨w, rfl, .refl w, ⟨inQ, outQ, hin, hout, hpunctual⟩, rfl, rfl, fun _ => rfl⟩

/-- `transmit`: the network takes what it wants, as far as the bandwidth goes. -/
theorem transmit_served (hw : w.Connected now v) :
    ∃ w', w.transmit now v = .ok w' ∧
      Served v w w' (if w.throttle.unitsRemaining v = 0 then w.readyFront now v else []) ∧
      w'.Connected now v ∧
      w'.throttle.unitsRemaining v = w.wants now v - w.bwRemaining ∧
      w'.bwRemaining = w.bwRemaining - w.wants now v ∧
      ((if w.throttle.unitsRemaining v = 0 then w.readyFront now v else []) = [] →
        w'.input = w.input) := by
  obtain ⟨w₁, htake, hserved, hconnected, hunits, hbw, hinput⟩ := takeFront_served hw
  refine ⟨w₁.spend v, ?_, ?_, hconnected, ?_, ?_, hinput⟩
  · unfold transmit
    rw [htake]
    rfl
  · refine ⟨hserved.sID, hserved.switchID, hserved.vToken, hserved.linkLatency, hserved.input,
      hserved.output, fun u hu => ?_, hserved.forwarded⟩
    exact (update_of_ne hu _ _).trans (hserved.units u hu)
  · refine (update_self v _ _).trans ?_
    rw [hunits, hbw]
  · show w₁.bwRemaining - w₁.throttle.unitsRemaining v = _
    rw [hunits, hbw]

/-! ## A core's throttle at the start of its slot -/

/-- The throttle of a core that wakes up at the start of the core's own slot. -/
structure AtSlotStart (now : WakeupTime) (w : ThrottlePass) : Prop where
  core : w.throttle.sID < 4
  arbiter : w.throttle.switchID = some 5
  start : now.curCycle % (NPROC * SLOT_WIDTH) = w.throttle.sID * SLOT_WIDTH

theorem AtSlotStart.served (hw : w.AtSlotStart now) (h : Served v w w' new) :
    w'.AtSlotStart now := by
  refine ⟨?_, h.switchID.trans hw.arbiter, ?_⟩
  · rw [h.sID]
    exact hw.core
  · rw [h.sID]
    exact hw.start

/-- The network that has the token: its front goes out if nothing is left of the last message; what
is left is paid for either way. -/
theorem serveSlotStart_served (hw : w.AtSlotStart now) (hv : w.Connected now v)
    (htoken : w.throttle.vToken = decide (v = 6)) :
    ∃ w', w.serveSlotStart now v = .ok w' ∧
      Served v w w' (if w.throttle.unitsRemaining v = 0 then w.readyFront now v else []) ∧
      w'.Connected now v ∧ w'.throttle.unitsRemaining v = w.wants now v - w.bwRemaining ∧
      ((if w.throttle.unitsRemaining v = 0 then w.readyFront now v else []) = [] →
        w'.input = w.input) := by
  obtain ⟨w₁, htransmit, hserved, hconnected, hunits, -, hinput⟩ := transmit_served hv
  refine ⟨w₁.scheduleIfReady now v, ?_, hserved.schedule _, hconnected, hunits, hinput⟩
  unfold serveSlotStart
  rw [if_pos ⟨getSlotOwner_of_mod_eq hw.core hw.start, isStartOfSlot_of_mod_eq hw.core hw.start⟩,
    if_pos htoken, htransmit]
  rfl

/-- The other network waits. -/
theorem serveSlotStart_waits (hw : w.AtSlotStart now)
    (htoken : w.throttle.vToken ≠ decide (v = 6)) :
    w.serveSlotStart now v = .ok (w.scheduleIfReady now v) := by
  unfold serveSlotStart
  rw [if_pos ⟨getSlotOwner_of_mod_eq hw.core hw.start, isStartOfSlot_of_mod_eq hw.core hw.start⟩,
    if_neg htoken]

/-- A side packet is at the front of network 2. -/
def sideFront (now : WakeupTime) (w : ThrottlePass) : Bool :=
  w.inReady now 2 && (w.peek 2 none).any (·.isSidePacket)

theorem serveSidePacket_served (hv : w.Connected now v) :
    ∃ w', w.serveSidePacket now v = .ok w' ∧
      Served v w w' (if v = 2 ∧ w.sideFront now = true ∧ w.throttle.unitsRemaining v = 0 then
        w.readyFront now v else []) := by
  unfold serveSidePacket
  by_cases hready : v = 2 ∧ w.inReady now v = true
  · obtain ⟨rfl, hready⟩ := hready
    rw [if_pos ⟨rfl, hready⟩]
    unfold sideFront
    rw [hready, Bool.true_and]
    by_cases hside : (w.peek 2 none).any (·.isSidePacket) = true
    · obtain ⟨w₁, htransmit, hserved, -⟩ := transmit_served hv
      rw [if_pos hside, htransmit]
      refine ⟨w₁.scheduleIfReady now 2, rfl, ?_⟩
      simp only [hside, true_and]
      exact hserved.schedule _
    · rw [if_neg hside, if_neg fun hx => hside hx.2.1]
      exact ⟨_, rfl, (Served.refl w).schedule _⟩
  · rw [if_neg hready, if_neg]
    · exact ⟨_, rfl, (Served.refl w).schedule _⟩
    · rintro ⟨rfl, hside, -⟩
      exact hready ⟨rfl, (Bool.and_eq_true_iff.mp hside).1⟩

theorem inReady_congr (h : w'.input v = w.input v) : w'.inReady now v = w.inReady now v := by
  unfold inReady
  rw [h]

theorem peek_congr {pos : Option ℕ} (h : w'.input v = w.input v) :
    w'.peek v pos = w.peek v pos := by
  unfold peek
  rw [h]

theorem readyFront_congr (h : w'.input v = w.input v) :
    w'.readyFront now v = w.readyFront now v := by
  unfold readyFront
  rw [inReady_congr h, peek_congr h]

theorem sideFront_congr (h : w'.input 2 = w.input 2) : w'.sideFront now = w.sideFront now := by
  unfold sideFront
  rw [inReady_congr h, peek_congr h]

/-- Network 6, if the slot is for write-backs. -/
theorem serveCore_writeBack (hw : w.AtSlotStart now) (hv : w.Connected now 6)
    (htoken : w.throttle.vToken = true) :
    ∃ w', w.serveCore now 6 = .ok w' ∧
      Served 6 w w' (if w.throttle.unitsRemaining 6 = 0 then w.readyFront now 6 else []) := by
  obtain ⟨w₁, hstart, hserved, -⟩ := serveSlotStart_served hw hv htoken
  refine ⟨{ w₁ with scheduleWakeup := true }, ?_, hserved.schedule true⟩
  unfold serveCore
  rw [hstart]
  rfl

/-- Network 6, if it is not: nothing happens. -/
theorem serveCore_noWriteBack (hw : w.AtSlotStart now) (htoken : w.throttle.vToken = false) :
    w.serveCore now 6 = .ok { w with scheduleWakeup := true } := by
  unfold serveCore
  rw [serveSlotStart_waits hw (by rw [htoken]; decide)]
  rfl

/-- Network 2 in any slot. -/
theorem serveCore_demand (hw : w.AtSlotStart now) (hv : w.Connected now 2) :
    ∃ w' new, w.serveCore now 2 = .ok w' ∧ Served 2 w w' new ∧
      (new ≠ [] → w.inReady now 2 = true) := by
  unfold serveCore
  cases htoken : w.throttle.vToken with
  | true =>
    rw [serveSlotStart_waits hw (by rw [htoken]; decide)]
    obtain ⟨w₂, hside, hserved⟩ := serveSidePacket_served (w := w.scheduleIfReady now 2) hv
    refine ⟨w₂, _, hside, ((Served.refl w).schedule _).trans hserved, fun hnew => ?_⟩
    by_contra hready
    refine hnew ?_
    rw [nil_append, if_neg]
    rintro ⟨-, hx, -⟩
    exact hready (Bool.and_eq_true_iff.mp hx).1
  | false =>
    obtain ⟨w₁, hstart, hserved₁, hconnected, -, hinput⟩ := serveSlotStart_served hw hv htoken
    obtain ⟨w₂, hside, hserved₂⟩ := serveSidePacket_served hconnected
    rw [hstart]
    refine ⟨w₂, _, hside, hserved₁.trans hserved₂, fun hnew => ?_⟩
    by_contra hready
    -- nothing is ready, so nothing was taken and the queue is as it was
    have hfront : w.readyFront now 2 = [] := if_neg hready
    have hnone : (if w.throttle.unitsRemaining 2 = 0 then w.readyFront now 2 else []) = [] := by
      rw [hfront, ite_self]
    refine hnew ?_
    rw [hnone, readyFront_congr (congrFun (hinput hnone) 2), hfront, ite_self]
    rfl

/-- Network 2, if the slot is for demand requests and one is ready. -/
theorem serveCore_demand_iff (hw : w.AtSlotStart now) (hv : w.Connected now 2)
    (htoken : w.throttle.vToken = false) (hready : w.inReady now 2 = true) :
    ∃ w' new, w.serveCore now 2 = .ok w' ∧ Served 2 w w' new ∧
      (new ≠ [] ↔ w.throttle.unitsRemaining 2 = 0 ∨
        (w.sideFront now = true ∧ w.throttle.unitsRemaining 2 ≤ w.bwRemaining)) := by
  obtain ⟨w₁, hstart, hserved₁, hconnected, hunits, hinput⟩ := serveSlotStart_served hw hv htoken
  obtain ⟨w₂, hside, hserved₂⟩ := serveSidePacket_served hconnected
  unfold serveCore
  rw [hstart]
  refine ⟨w₂, _, hside, hserved₁.trans hserved₂, ?_⟩
  by_cases hzero : w.throttle.unitsRemaining 2 = 0
  · refine iff_of_true ?_ (.inl hzero)
    rw [if_pos hzero]
    exact append_ne_nil_of_left_ne_nil (readyFront_ne_nil.mpr hready) _
  · -- the last message is paid for first; what is at the front may be a side packet
    have hnone : (if w.throttle.unitsRemaining 2 = 0 then w.readyFront now 2 else []) = [] :=
      if_neg hzero
    have hsame := congrFun (hinput hnone) 2
    have hwants : w.wants now 2 = w.throttle.unitsRemaining 2 := by
      obtain ⟨inQ, outQ, hin, hout, -⟩ := hv
      unfold wants
      rw [if_neg (by simp [hin, hout]), if_neg hzero]
    rw [hnone, hunits, hwants, sideFront_congr hsame, readyFront_congr hsame]
    constructor
    · intro hnew
      by_contra hnot
      refine hnew (if_neg ?_)
      rintro ⟨-, hside, hpaid⟩
      exact hnot (.inr ⟨hside, Nat.sub_eq_zero_iff_le.mp hpaid⟩)
    · rintro (hx | ⟨hside, hpaid⟩)
      · exact absurd hx hzero
      · rw [if_pos ⟨rfl, hside, Nat.sub_eq_zero_of_le hpaid⟩]
        exact readyFront_ne_nil.mpr hready

/-! ## `operateVnet` -/

/-- The output of the network has room. -/
def Room (now : WakeupTime) (w : ThrottlePass) (v : ℕ) : Prop :=
  ∀ q ∈ w.output v, q.areNSlotsAvailable now.sender.toClockedObject 1 = true ∧
    q.Punctual now.sender w.throttle.linkLatency

theorem Room.connected (hw : w.Room now v) (h : ¬ ((w.input v).isNone ∨ (w.output v).isNone)) :
    w.Connected now v ∧ w.outAvailable now v = true := by
  rw [not_or, Bool.not_eq_true, Bool.not_eq_true, Option.isNone_eq_false_iff,
    Option.isNone_eq_false_iff, Option.isSome_iff_exists, Option.isSome_iff_exists] at h
  obtain ⟨⟨inQ, hin⟩, outQ, hout⟩ := h
  obtain ⟨hslot, hpunctual⟩ := hw outQ hout
  refine ⟨⟨inQ, outQ, hin, hout, hpunctual⟩, ?_⟩
  unfold outAvailable
  rw [hout]
  exact hslot

variable {w₁ : ThrottlePass} {fs : List (ℕ × NetworkMessage)}

theorem operateVnet_null (hchoose : w.chooseSlotType now v = .ok w₁)
    (h : (w₁.input v).isNone ∨ (w₁.output v).isNone) : w.operateVnet now v = .ok w₁ := by
  unfold operateVnet
  rw [hchoose]
  exact if_pos h

theorem operateVnet_serveOnce {w₂ : ThrottlePass} (hchoose : w.chooseSlotType now v = .ok w₁)
    (h : ¬ ((w₁.input v).isNone ∨ (w₁.output v).isNone)) (hserve : w₁.serveOnce now v = .ok w₂) :
    ∃ b, w.operateVnet now v = .ok { w₂ with scheduleWakeup := b } := by
  obtain ⟨b, hb⟩ := awaitOutput_eq now v w₂
  refine ⟨b, ?_⟩
  unfold operateVnet
  rw [hchoose]
  show (if (w₁.input v).isNone ∨ (w₁.output v).isNone then pure w₁ else do
    let w ← w₁.serveOnce now v
    pure (w.awaitOutput now v)) = _
  rw [if_neg h, hserve, ← hb]
  rfl

theorem chooseSlotType_other (now : WakeupTime) (w : ThrottlePass) (hv : v ≠ 6) : w.chooseSlotType now v = .ok w := by
  unfold chooseSlotType
  rw [if_neg fun hx => hv hx.2.1]

theorem serve_eq_serveCore (hw : w.AtSlotStart now) (hv : v = 6 ∨ v = 2) :
    w.serve now v = w.serveCore now v := by
  unfold serve
  rw [hw.arbiter]
  exact if_pos ⟨rfl, hw.core, hv⟩

/-- A network that has nothing to send, or finds no bandwidth left. -/
theorem serveOnce_idle (h : ¬ w.Pending now v) : w.serveOnce now v = .ok w :=
  if_neg fun hx => h hx.1

theorem serveOnce_pending (h : w.Pending now v) (ha : w.outAvailable now v = true) :
    w.serveOnce now v = w.serve now v := if_pos ⟨h, ha⟩

/-- The networks other than 2 and 6 take their share of the bandwidth. -/
theorem operateVnet_other (hw : w.AtSlotStart now) (hroom : w.Room now v) (h2 : v ≠ 2)
    (h6 : v ≠ 6) :
    ∃ w' new, w.operateVnet now v = .ok w' ∧ Served v w w' new ∧
      (new ≠ [] → w.inReady now v = true) ∧ w'.bwRemaining = w.bwRemaining - w.wants now v := by
  have hchoose := chooseSlotType_other now w h6
  by_cases hnull : (w.input v).isNone ∨ (w.output v).isNone
  · refine ⟨w, [], operateVnet_null hchoose hnull, .refl w, fun h => absurd rfl h, ?_⟩
    unfold wants
    rw [if_pos hnull, Nat.sub_zero]
  · obtain ⟨hconnected, havail⟩ := hroom.connected hnull
    by_cases hpending : w.Pending now v
    · obtain ⟨w₁, htransmit, hserved, -, -, hbw, -⟩ := transmit_served hconnected
      have hserve : w.serveOnce now v = .ok (w₁.scheduleIfReady now v) := by
        rw [serveOnce_pending hpending havail]
        unfold serve
        rw [hw.arbiter]
        dsimp only
        rw [if_neg (by rintro ⟨-, -, h | h⟩ <;> omega),
          if_neg (by have := hw.core; omega), htransmit]
        rfl
      obtain ⟨b, hb⟩ := operateVnet_serveOnce hchoose hnull hserve
      refine ⟨_, _, hb, hserved.schedule b, fun hnew => ?_, hbw⟩
      by_contra hready
      refine hnew ?_
      rw [show w.readyFront now v = [] from if_neg hready, ite_self]
    · obtain ⟨b, hb⟩ := operateVnet_serveOnce hchoose hnull (serveOnce_idle hpending)
      refine ⟨_, [], hb, (Served.refl w).schedule b, fun h => absurd rfl h, ?_⟩
      show w.bwRemaining = w.bwRemaining - w.wants now v
      -- no bandwidth, or nothing to send
      rcases eq_zero_or_pos w.bwRemaining with hzero | hpos
      · rw [hzero, Nat.zero_sub]
      · have hidle : ¬ w.inReady now v = true ∧ w.throttle.unitsRemaining v = 0 := by
          constructor
          · exact fun hx => hpending ⟨hpos, .inl hx⟩
          · by_contra hx
            exact hpending ⟨hpos, .inr (pos_of_ne_zero hx)⟩
        unfold wants
        rw [if_neg hnull, if_pos hidle.2, show w.readyFront now v = [] from if_neg hidle.1]
        rfl

/-- Network 2 in any slot. -/
theorem operateVnet_demand (hw : w.AtSlotStart now) (hroom : w.Room now 2) :
    ∃ w' new, w.operateVnet now 2 = .ok w' ∧ Served 2 w w' new ∧
      (new ≠ [] → w.inReady now 2 = true) := by
  have hchoose := chooseSlotType_other now w (v := 2) (by decide)
  by_cases hnull : (w.input 2).isNone ∨ (w.output 2).isNone
  · exact ⟨w, [], operateVnet_null hchoose hnull, .refl w, fun h => absurd rfl h⟩
  · obtain ⟨hconnected, havail⟩ := hroom.connected hnull
    by_cases hpending : w.Pending now 2
    · obtain ⟨w₁, new, hserve, hserved, hnew⟩ := serveCore_demand hw hconnected
      rw [← serve_eq_serveCore hw (.inr rfl), ← serveOnce_pending hpending havail] at hserve
      obtain ⟨b, hb⟩ := operateVnet_serveOnce hchoose hnull hserve
      exact ⟨_, new, hb, hserved.schedule b, hnew⟩
    · obtain ⟨b, hb⟩ := operateVnet_serveOnce hchoose hnull (serveOnce_idle hpending)
      exact ⟨_, [], hb, (Served.refl w).schedule b, fun h => absurd rfl h⟩

/-- Network 2, if the slot is for demand requests and one is ready. -/
theorem operateVnet_demand_iff (hw : w.AtSlotStart now) (hroom : w.Room now 2)
    (hout : (w.output 2).isSome = true) (htoken : w.throttle.vToken = false)
    (hready : w.inReady now 2 = true) :
    ∃ w' new, w.operateVnet now 2 = .ok w' ∧ Served 2 w w' new ∧
      (new ≠ [] ↔ 0 < w.bwRemaining ∧ (w.throttle.unitsRemaining 2 = 0 ∨
        (w.sideFront now = true ∧ w.throttle.unitsRemaining 2 ≤ w.bwRemaining))) := by
  have hchoose := chooseSlotType_other now w (v := 2) (by decide)
  have hnull : ¬ ((w.input 2).isNone ∨ (w.output 2).isNone) := by
    obtain ⟨q, -, hq, -⟩ := exists_peek_of_inReady hready
    rw [Option.isNone_iff_eq_none, Option.isNone_iff_eq_none, hq]
    rintro (h | h)
    · cases h
    · rw [h] at hout
      cases hout
  obtain ⟨hconnected, havail⟩ := hroom.connected hnull
  by_cases hbw : 0 < w.bwRemaining
  · obtain ⟨w₁, new, hserve, hserved, hnew⟩ := serveCore_demand_iff hw hconnected htoken hready
    rw [← serve_eq_serveCore hw (.inr rfl),
      ← serveOnce_pending ⟨hbw, .inl hready⟩ havail] at hserve
    obtain ⟨b, hb⟩ := operateVnet_serveOnce hchoose hnull hserve
    refine ⟨_, new, hb, hserved.schedule b, ?_⟩
    rw [hnew, and_iff_right hbw]
  · obtain ⟨b, hb⟩ := operateVnet_serveOnce hchoose hnull (serveOnce_idle fun hx => hbw hx.1)
    refine ⟨_, [], hb, (Served.refl w).schedule b, iff_of_false (fun h => h rfl) fun hx => hbw hx.1⟩

/-! ## The slot's network -/

/-- The network that the slot is for: the period says which of the two goes first, and the other
one gets the slot if the first has nothing. -/
def slotVnet (now : WakeupTime) (w : ThrottlePass) : ℕ :=
  if w.inReady now 6 = true ∧ (isWBPeriod now.curCycle = true ∨ w.inReady now 2 = false) then 6
  else 2

/-- The token and the flag of the shared memory after the choice. -/
def setToken (w : ThrottlePass) (vToken smBlock : Bool) : ThrottlePass :=
  { w with throttle := { w.throttle with vToken := vToken, smBlock := smBlock } }

/-- The first block of `operateVnet` sets the token for the slot's network. -/
theorem chooseSlotType_writeBack (hw : w.AtSlotStart now) (hin6 : (w.input 6).isSome = true)
    (hin2 : (w.input 2).isSome = true) (hready : w.inReady now 2 = true ∨ w.inReady now 6 = true) :
    ∃ smBlock,
      w.chooseSlotType now 6 = .ok (w.setToken (decide (w.slotVnet now = 6)) smBlock) := by
  obtain ⟨wbQueue, h6⟩ := Option.isSome_iff_exists.mp hin6
  obtain ⟨demandQueue, h2⟩ := Option.isSome_iff_exists.mp hin2
  have hwb : w.inReady now 6 = wbQueue.isReady now.receiver := by
    unfold inReady
    rw [h6]
    rfl
  have hdemand : w.inReady now 2 = demandQueue.isReady now.receiver := by
    unfold inReady
    rw [h2]
    rfl
  -- `setSlotType` touches the token only
  have hset : w.throttle.setSlotType now.curCycle =
      { w.throttle with vToken := isWBPeriod now.curCycle } := by
    have htoken := vToken_setSlotType (h := w.throttle) hw.core hw.start
    rw [← htoken]
    unfold Throttle.setSlotType
    split <;> split <;> rfl
  unfold chooseSlotType
  rw [if_pos ⟨isStartOfSlot_of_mod_eq hw.core hw.start, rfl, hw.core⟩, h6, h2]
  dsimp only
  rw [hset]
  unfold slotVnet
  rw [hwb, hdemand] at hready ⊢
  cases hperiod : isWBPeriod now.curCycle <;> cases hw6 : wbQueue.isReady now.receiver <;>
    cases hw2 : demandQueue.isReady now.receiver <;> rw [hw6, hw2] at hready <;>
    first | exact ⟨_, rfl⟩ | simp at hready

/-- Network 6 at the start of the slot. -/
theorem operateVnet_writeBack (hw : w.AtSlotStart now) (hroom : w.Room now 6)
    (hin6 : (w.input 6).isSome = true) (hin2 : (w.input 2).isSome = true)
    (hout6 : (w.output 6).isSome = true)
    (hready : w.inReady now 2 = true ∨ w.inReady now 6 = true) :
    ∃ smBlock w' new, w.operateVnet now 6 = .ok w' ∧
      Served 6 (w.setToken (decide (w.slotVnet now = 6)) smBlock) w' new ∧
      (new ≠ [] → w.inReady now 6 = true) ∧
      (w.slotVnet now = 6 → (new ≠ [] ↔
        0 < w.bwRemaining ∧ w.throttle.unitsRemaining 6 = 0)) ∧
      (w.slotVnet now ≠ 6 → new = [] ∧ w'.bwRemaining = w.bwRemaining) := by
  obtain ⟨smBlock, hchoose⟩ := chooseSlotType_writeBack hw hin6 hin2 hready
  generalize hw₁ : w.setToken (decide (w.slotVnet now = 6)) smBlock = w₁ at hchoose
  have hstart₁ : w₁.AtSlotStart now := by
    subst hw₁
    exact ⟨hw.core, hw.arbiter, hw.start⟩
  have hnull : ¬ ((w₁.input 6).isNone ∨ (w₁.output 6).isNone) := by
    obtain ⟨inQ, hin⟩ := Option.isSome_iff_exists.mp hin6
    obtain ⟨outQ, hout⟩ := Option.isSome_iff_exists.mp hout6
    subst hw₁
    simp [setToken, hin, hout]
  have hroom₁ : w₁.Room now 6 := by
    subst hw₁
    exact hroom
  obtain ⟨hconnected, havail⟩ := hroom₁.connected hnull
  have hready₁ : w₁.inReady now 6 = w.inReady now 6 := by
    subst hw₁
    rfl
  have hfront : ∀ {new : List NetworkMessage},
      new = (if w₁.throttle.unitsRemaining 6 = 0 then w₁.readyFront now 6 else []) →
      (new ≠ [] ↔ w₁.throttle.unitsRemaining 6 = 0 ∧ w.inReady now 6 = true) := by
    rintro new rfl
    rw [← hready₁, ← readyFront_ne_nil]
    split
    · rename_i hunits
      exact (and_iff_right hunits).symm
    · rename_i hunits
      exact iff_of_false (fun h => h rfl) fun hx => hunits hx.1
  have hfields : w₁.bwRemaining = w.bwRemaining ∧
      w₁.throttle.unitsRemaining = w.throttle.unitsRemaining ∧
      w₁.throttle.vToken = decide (w.slotVnet now = 6) := by
    subst hw₁
    exact ⟨rfl, rfl, rfl⟩
  obtain ⟨hbw₁, hunits₁, htoken₁⟩ := hfields
  refine ⟨smBlock, ?_⟩
  rw [hw₁]
  have hslotReady : w.slotVnet now = 6 → w.inReady now 6 = true := by
    intro hslot
    by_contra hx
    unfold slotVnet at hslot
    rw [if_neg fun hy => hx hy.1] at hslot
    cases hslot
  by_cases hpending : w₁.Pending now 6
  · by_cases hslot : w.slotVnet now = 6
    · obtain ⟨w₂, hserve, hserved⟩ := serveCore_writeBack hstart₁ hconnected
        (by rw [htoken₁, hslot]; rfl)
      rw [← serve_eq_serveCore hstart₁ (.inl rfl), ← serveOnce_pending hpending havail] at hserve
      obtain ⟨b, hb⟩ := operateVnet_serveOnce hchoose hnull hserve
      refine ⟨_, _, hb, hserved.schedule b, fun hnew => ((hfront rfl).mp hnew).2, fun _ => ?_,
        fun hx => absurd hslot hx⟩
      rw [hfront rfl, hunits₁, and_iff_left (hslotReady hslot), and_iff_right (hbw₁ ▸ hpending.1)]
    · have hserve := serveCore_noWriteBack hstart₁ (by rw [htoken₁]; exact decide_eq_false hslot)
      rw [← serve_eq_serveCore hstart₁ (.inl rfl), ← serveOnce_pending hpending havail] at hserve
      obtain ⟨b, hb⟩ := operateVnet_serveOnce hchoose hnull hserve
      exact ⟨_, [], hb, ((Served.refl w₁).schedule true).schedule b, fun h => absurd rfl h,
        fun hx => absurd hx hslot, fun _ => ⟨rfl, hbw₁⟩⟩
  · obtain ⟨b, hb⟩ := operateVnet_serveOnce hchoose hnull (serveOnce_idle hpending)
    refine ⟨_, [], hb, (Served.refl w₁).schedule b, fun h => absurd rfl h, fun hslot => ?_,
      fun _ => ⟨rfl, hbw₁⟩⟩
    refine iff_of_false (fun h => h rfl) fun hx => hpending ⟨hbw₁ ▸ hx.1, .inl ?_⟩
    rw [hready₁]
    exact hslotReady hslot

/-! ## The whole wakeup -/

/-- What the networks between the slot's and `n` want.  Network 6 does not take part in a demand
slot. -/
def backlog (now : WakeupTime) (w : ThrottlePass) (c n : ℕ) : ℕ :=
  ∑ v ∈ Finset.range n, if c < v ∧ v ≠ 6 then w.wants now v else 0

/-- **The slot can be used**: the networks from `n` down leave bandwidth for network `c`, and nothing
is left of its last message; or that is paid for as well, and a side packet follows. -/
def SlotFree (now : WakeupTime) (w : ThrottlePass) (c n : ℕ) : Prop :=
  w.backlog now c n < w.bwRemaining ∧ (w.throttle.unitsRemaining c = 0 ∨
    (c = 2 ∧ w.sideFront now = true ∧
      w.backlog now c n + w.throttle.unitsRemaining c ≤ w.bwRemaining))

instance (now : WakeupTime) (w : ThrottlePass) (c n : ℕ) : Decidable (w.SlotFree now c n) :=
  inferInstanceAs (Decidable (_ ∧ _))

theorem wants_congr {u : ℕ} (h : Served v w w' new) (hu : u ≠ v) :
    w'.wants now u = w.wants now u := by
  unfold wants
  rw [h.input u hu, h.output u hu, h.units u hu, readyFront_congr (h.input u hu)]

/-- Serving a network outside the sum leaves the sum. -/
theorem backlog_congr (h : Served v w w' new) (hv : n ≤ v) :
    w'.backlog now c n = w.backlog now c n := by
  refine Finset.sum_congr rfl fun u hu => ?_
  rw [wants_congr h (by have := Finset.mem_range.mp hu; omega)]

/-- The network `n` takes its share. -/
theorem slotFree_succ (h : Served n w w' new) (hc : c < n) (h2 : 2 < n) (h6 : n ≠ 6)
    (hbw : w'.bwRemaining = w.bwRemaining - w.wants now n) :
    w.SlotFree now c (n + 1) ↔ w'.SlotFree now c n := by
  have hsum : w.backlog now c (n + 1) = w.backlog now c n + w.wants now n := by
    unfold backlog
    rw [Finset.sum_range_succ, if_pos ⟨hc, h6⟩]
  unfold SlotFree
  rw [backlog_congr h le_rfl, h.units c (by omega),
    sideFront_congr (h.input 2 (by omega))]
  constructor
  · rintro ⟨hlt, hrest⟩
    refine ⟨by omega, hrest.imp_right ?_⟩
    rintro ⟨hc2, hside, hle⟩
    exact ⟨hc2, hside, by omega⟩
  · rintro ⟨hlt, hrest⟩
    refine ⟨by omega, hrest.imp_right ?_⟩
    rintro ⟨hc2, hside, hle⟩
    exact ⟨hc2, hside, by omega⟩

/-- From here on: every output below `n` has room. -/
def RoomBelow (now : WakeupTime) (w : ThrottlePass) (n : ℕ) : Prop := ∀ v < n, w.Room now v

theorem RoomBelow.served (hw : w.RoomBelow now (n + 1)) (h : Served n w w' new) :
    w'.RoomBelow now n := by
  intro v hv q hq
  rw [h.output v (by omega)] at hq
  rw [h.linkLatency]
  exact hw v (by omega) q hq

/-- What the wakeup still forwards from networks below `n` comes from their queues as they are. -/
def ForwardsBelow (now : WakeupTime) (n : ℕ) (w w' : ThrottlePass)
    (fs : List (ℕ × NetworkMessage)) : Prop :=
  w'.forwarded = w.forwarded ++ fs ∧ ∀ f ∈ fs, f.1 < n ∧ w.inReady now f.1 = true

theorem ForwardsBelow.served (h : Served n w w₁ new) (hnew : new ≠ [] → w.inReady now n = true)
    (hrest : ForwardsBelow now n w₁ w' fs) :
    ForwardsBelow now (n + 1) w w' (new.map (Prod.mk n) ++ fs) := by
  refine ⟨?_, fun f hf => ?_⟩
  · rw [hrest.1, h.forwarded, append_assoc]
  · rcases mem_append.mp hf with hf | hf
    · obtain ⟨m, hm, rfl⟩ := mem_map.mp hf
      exact ⟨Nat.lt_succ_self n, hnew (ne_nil_of_mem hm)⟩
    · obtain ⟨hlt, hready⟩ := hrest.2 f hf
      refine ⟨by omega, ?_⟩
      rw [← inReady_congr (h.input f.1 (by omega))]
      exact hready

/-- A message of network `c` is among those of the networks below. -/
theorem exists_mem_served (hc : c ≠ n) :
    (∃ f ∈ new.map (Prod.mk n) ++ fs, f.1 = c) ↔ ∃ f ∈ fs, f.1 = c := by
  constructor
  · rintro ⟨f, hf, hfc⟩
    rcases mem_append.mp hf with hf | hf
    · obtain ⟨m, -, rfl⟩ := mem_map.mp hf
      exact absurd hfc.symm hc
    · exact ⟨f, hf, hfc⟩
  · rintro ⟨f, hf, hfc⟩
    exact ⟨f, mem_append_right _ hf, hfc⟩

/-- A message of network `n` is among its own. -/
theorem exists_mem_served_self (hfs : ∀ f ∈ fs, f.1 < n) :
    (∃ f ∈ new.map (Prod.mk n) ++ fs, f.1 = n) ↔ new ≠ [] := by
  constructor
  · rintro ⟨f, hf, hfn⟩
    rcases mem_append.mp hf with hf | hf
    · obtain ⟨m, hm, -⟩ := mem_map.mp hf
      exact ne_nil_of_mem hm
    · have := hfs f hf
      omega
  · intro hne
    obtain ⟨m, hm⟩ := exists_mem_of_ne_nil new hne
    exact ⟨(n, m), mem_append_left _ (mem_map.mpr ⟨m, hm, rfl⟩), rfl⟩

/-- The networks below 6, where the token no longer changes. -/
theorem operateBelow_demand (n : ℕ) : ∀ {w : ThrottlePass}, n ≤ 6 → w.AtSlotStart now →
    w.RoomBelow now n → ∃ w' fs, w.operateBelow now n = .ok w' ∧ ForwardsBelow now n w w' fs ∧
      (3 ≤ n → (w.output 2).isSome = true → w.throttle.vToken = false →
        w.inReady now 2 = true → ((∃ f ∈ fs, f.1 = 2) ↔ w.SlotFree now 2 n)) := by
  induction n with
  | zero =>
    intro w _ _ _
    exact ⟨w, [], rfl, ⟨(append_nil _).symm, nofun⟩, fun h => absurd h (by decide)⟩
  | succ n ih =>
    intro w hn hw hroom
    -- one network, then the rest
    have hrest : ∀ {w₁ : ThrottlePass} {new : List NetworkMessage},
        w.operateVnet now n = .ok w₁ → Served n w w₁ new →
        (new ≠ [] → w.inReady now n = true) →
        ∃ w' fs, w.operateBelow now (n + 1) = .ok w' ∧
          ForwardsBelow now (n + 1) w w' (new.map (Prod.mk n) ++ fs) ∧
          (∀ f ∈ fs, f.1 < n) ∧
          (3 ≤ n → (w₁.output 2).isSome = true → w₁.throttle.vToken = false →
            w₁.inReady now 2 = true → ((∃ f ∈ fs, f.1 = 2) ↔ w₁.SlotFree now 2 n)) := by
      intro w₁ new hoperate hserved hnew
      obtain ⟨w', fs, hbelow, hfs, hiff⟩ := ih (by omega) (hw.served hserved) (hroom.served hserved)
      refine ⟨w', fs, ?_, ForwardsBelow.served hserved hnew hfs, fun f hf => (hfs.2 f hf).1, hiff⟩
      unfold operateBelow
      rw [hoperate]
      exact hbelow
    rcases eq_or_ne n 2 with rfl | h2
    · by_cases hdemand : (w.output 2).isSome = true ∧ w.throttle.vToken = false ∧
          w.inReady now 2 = true
      · obtain ⟨hout, htoken, hready⟩ := hdemand
        obtain ⟨w₁, new, hoperate, hserved, hnew⟩ :=
          operateVnet_demand_iff hw (hroom 2 (by omega)) hout htoken hready
        obtain ⟨w', fs, hbelow, hfs, hlt, -⟩ := hrest hoperate hserved fun _ => hready
        refine ⟨w', _, hbelow, hfs, fun _ _ _ _ => ?_⟩
        have hzero : w.backlog now 2 3 = 0 := rfl
        rw [exists_mem_served_self hlt, hnew]
        unfold SlotFree
        rw [hzero, zero_add, and_iff_right (rfl : (2 : ℕ) = 2)]
      · obtain ⟨w₁, new, hoperate, hserved, hnew⟩ := operateVnet_demand hw (hroom 2 (by omega))
        obtain ⟨w', fs, hbelow, hfs, -, -⟩ := hrest hoperate hserved hnew
        exact ⟨w', _, hbelow, hfs, fun _ hout htoken hready =>
          absurd ⟨hout, htoken, hready⟩ hdemand⟩
    · obtain ⟨w₁, new, hoperate, hserved, hnew, hbw⟩ :=
        operateVnet_other hw (hroom n (by omega)) h2 (by omega)
      obtain ⟨w', fs, hbelow, hfs, -, hiff⟩ := hrest hoperate hserved hnew
      refine ⟨w', _, hbelow, hfs, fun h3 hout htoken hready => ?_⟩
      rw [exists_mem_served (by omega), slotFree_succ hserved (by omega) (by omega) (by omega) hbw]
      refine hiff (by omega) ?_ (hserved.vToken.trans htoken) ?_
      · rw [hserved.output 2 (by omega)]
        exact hout
      · rw [inReady_congr (hserved.input 2 (by omega))]
        exact hready

theorem slotVnet_congr (h6 : w'.input 6 = w.input 6) (h2 : w'.input 2 = w.input 2) :
    w'.slotVnet now = w.slotVnet now := by
  unfold slotVnet
  rw [inReady_congr h6, inReady_congr h2]

theorem slotVnet_eq (now : WakeupTime) (w : ThrottlePass) :
    w.slotVnet now = 6 ∨ w.slotVnet now = 2 := by
  unfold slotVnet
  split
  · exact .inl rfl
  · exact .inr rfl

/-- The queues of the two networks are there. -/
structure Wired (w : ThrottlePass) : Prop where
  input2 : (w.input 2).isSome = true
  output2 : (w.output 2).isSome = true
  input6 : (w.input 6).isSome = true
  output6 : (w.output 6).isSome = true

theorem Wired.served (hw : w.Wired) (h : Served v w w' new) (h2 : v ≠ 2) (h6 : v ≠ 6) :
    w'.Wired := by
  refine ⟨?_, ?_, ?_, ?_⟩
  · rw [h.input 2 h2.symm]
    exact hw.input2
  · rw [h.output 2 h2.symm]
    exact hw.output2
  · rw [h.input 6 h6.symm]
    exact hw.input6
  · rw [h.output 6 h6.symm]
    exact hw.output6

/-- Network 6 and the networks below. -/
theorem operateBelow_writeBack (hw : w.AtSlotStart now) (hroom : w.RoomBelow now 7) (hq : w.Wired)
    (hready : w.inReady now 2 = true ∨ w.inReady now 6 = true) :
    ∃ w' fs, w.operateBelow now 7 = .ok w' ∧ ForwardsBelow now 7 w w' fs ∧
      ((∃ f ∈ fs, f.1 = w.slotVnet now) ↔ w.SlotFree now (w.slotVnet now) 7) := by
  obtain ⟨smBlock, w₁, new, hoperate, hserved, hnew, hwb, hdemand⟩ :=
    operateVnet_writeBack hw (hroom 6 (by omega)) hq.input6 hq.input2 hq.output6 hready
  have hstart₁ : w₁.AtSlotStart now :=
    AtSlotStart.served (w := w.setToken _ smBlock) ⟨hw.core, hw.arbiter, hw.start⟩ hserved
  have hroom₁ : w₁.RoomBelow now 6 :=
    RoomBelow.served (w := w.setToken _ smBlock) hroom hserved
  obtain ⟨w', fs, hbelow, hfs, hiff⟩ := operateBelow_demand 6 le_rfl hstart₁ hroom₁
  have hforwards := ForwardsBelow.served hserved hnew hfs
  refine ⟨w', new.map (Prod.mk 6) ++ fs, ?_, hforwards, ?_⟩
  · unfold operateBelow
    rw [hoperate]
    exact hbelow
  rcases slotVnet_eq now w with hslot | hslot
  · have hzero : w.backlog now 6 7 = 0 := rfl
    rw [hslot, exists_mem_served_self fun f hf => (hfs.2 f hf).1, hwb hslot]
    unfold SlotFree
    rw [hzero]
    simp
  · obtain ⟨rfl, hbw⟩ := hdemand (by omega)
    have hready2 : w.inReady now 2 = true := by
      by_contra hx
      have hready6 := hready.resolve_left hx
      unfold slotVnet at hslot
      rw [if_pos ⟨hready6, .inr (Bool.eq_false_iff.mpr hx)⟩] at hslot
      cases hslot
    rw [hslot, exists_mem_served (by decide), hiff (by decide) ?_ ?_ ?_]
    · unfold SlotFree
      rw [backlog_congr hserved le_rfl, hbw, hserved.units 2 (by decide),
        sideFront_congr (hserved.input 2 (by decide))]
      rfl
    · rw [hserved.output 2 (by decide)]
      exact hq.output2
    · rw [hserved.vToken, hslot]
      rfl
    · rw [inReady_congr (hserved.input 2 (by decide))]
      exact hready2

/-- All networks. -/
theorem operateBelow_slot (k : ℕ) : ∀ {w : ThrottlePass}, w.AtSlotStart now →
    w.RoomBelow now (7 + k) → w.Wired → (w.inReady now 2 = true ∨ w.inReady now 6 = true) →
    ∃ w' fs, w.operateBelow now (7 + k) = .ok w' ∧ ForwardsBelow now (7 + k) w w' fs ∧
      ((∃ f ∈ fs, f.1 = w.slotVnet now) ↔ w.SlotFree now (w.slotVnet now) (7 + k)) := by
  induction k with
  | zero =>
    intro w hw hroom hq hready
    exact operateBelow_writeBack hw hroom hq hready
  | succ k ih =>
    intro w hw hroom hq hready
    obtain ⟨w₁, new, hoperate, hserved, hnew, hbw⟩ :=
      operateVnet_other hw (hroom (7 + k) (by omega)) (by omega) (by omega)
    have h2 := hserved.input 2 (by omega)
    have h6 := hserved.input 6 (by omega)
    obtain ⟨w', fs, hbelow, hfs, hiff⟩ := ih (hw.served hserved) (hroom.served hserved)
      (hq.served hserved (by omega) (by omega))
      (by rw [inReady_congr h2, inReady_congr h6]; exact hready)
    refine ⟨w', new.map (Prod.mk (7 + k)) ++ fs, ?_, ForwardsBelow.served hserved hnew hfs, ?_⟩
    · show (w.operateVnet now (7 + k) >>= fun w => w.operateBelow now (7 + k)) = .ok w'
      rw [hoperate]
      exact hbelow
    · rw [slotVnet_congr h6 h2] at hiff
      have hc : w.slotVnet now < 7 + k := by
        rcases slotVnet_eq now w with hslot | hslot
        · omega
        · omega
      rw [exists_mem_served (by omega), hiff]
      exact (slotFree_succ hserved hc (by omega) (by omega) hbw).symm

end ThrottlePass

/-! ## The slot arbiter -/

/-- The state of a throttle when a wakeup begins. -/
def Throttle.pass (h : Throttle) (input output : ℕ → Option NetworkQueue) : ThrottlePass :=
  ⟨h, input, output, h.linkBandwidth, false, []⟩

/-- The throttle of core `h.sID` at the start of its slot: the link has bandwidth, the queues of the
networks 2 and 6 are there, and every output has room. -/
structure Throttle.SlotWakeup (h : Throttle) (now : WakeupTime)
    (input output : ℕ → Option NetworkQueue) : Prop where
  start : (h.pass input output).AtSlotStart now
  vnets : 6 < h.vnets
  bandwidth : 0 < h.linkBandwidth
  wired : (h.pass input output).Wired
  room : (h.pass input output).RoomBelow now h.vnets

/-- **Work conservation**: if a demand request or a write-back is ready, one of them goes out; if
both are, the period says which. -/
structure WorkConserving (now : WakeupTime) (before after : ThrottlePass) : Prop where
  one : before.inReady now 2 = true ∨ before.inReady now 6 = true →
    ∃ f ∈ after.forwarded, f.1 = 2 ∨ f.1 = 6
  writeBack : before.inReady now 2 = true → before.inReady now 6 = true →
    isWBPeriod now.curCycle = true → ∃ f ∈ after.forwarded, f.1 = 6
  demand : before.inReady now 2 = true → before.inReady now 6 = true →
    isWBPeriod now.curCycle = false → ∃ f ∈ after.forwarded, f.1 = 2

/-- It comes down to the network that the slot is for. -/
theorem workConserving_iff {now : WakeupTime} {w w' : ThrottlePass}
    (hready : w.inReady now 2 = true ∨ w.inReady now 6 = true)
    (hfrom : ∀ f ∈ w'.forwarded, w.inReady now f.1 = true) :
    WorkConserving now w w' ↔ ∃ f ∈ w'.forwarded, f.1 = w.slotVnet now := by
  unfold ThrottlePass.slotVnet
  by_cases h6 : w.inReady now 6 = true
  · by_cases h2 : w.inReady now 2 = true
    · rw [h6, h2]
      cases hperiod : isWBPeriod now.curCycle with
      | true =>
        refine ⟨fun h => h.writeBack h2 h6 hperiod, ?_⟩
        rintro ⟨f, hf, hf6⟩
        exact ⟨fun _ => ⟨f, hf, .inr hf6⟩, fun _ _ _ => ⟨f, hf, hf6⟩,
          fun _ _ hx => absurd (hx.symm.trans hperiod) (by decide)⟩
      | false =>
        refine ⟨fun h => h.demand h2 h6 hperiod, ?_⟩
        rintro ⟨f, hf, hf2⟩
        exact ⟨fun _ => ⟨f, hf, .inl hf2⟩,
          fun _ _ hx => absurd (hx.symm.trans hperiod) (by decide), fun _ _ _ => ⟨f, hf, hf2⟩⟩
    · rw [if_pos ⟨h6, .inr (Bool.eq_false_iff.mpr h2)⟩]
      constructor
      · intro h
        obtain ⟨f, hf, hf2 | hf6⟩ := h.one hready
        · have := hfrom f hf
          rw [hf2] at this
          exact absurd this h2
        · exact ⟨f, hf, hf6⟩
      · rintro ⟨f, hf, hf6⟩
        exact ⟨fun _ => ⟨f, hf, .inr hf6⟩, fun hx => absurd hx h2, fun hx => absurd hx h2⟩
  · rw [if_neg fun hx => h6 hx.1]
    constructor
    · intro h
      obtain ⟨f, hf, hf2 | hf6⟩ := h.one hready
      · exact ⟨f, hf, hf2⟩
      · have := hfrom f hf
        rw [hf6] at this
        exact absurd this h6
    · rintro ⟨f, hf, hf2⟩
      exact ⟨fun _ => ⟨f, hf, .inl hf2⟩, fun _ hx => absurd hx h6, fun _ hx => absurd hx h6⟩

/-- **The slot arbiter.**  A wakeup at the start of a core's slot uses the slot as it should exactly
if the higher networks leave bandwidth for the slot's network and nothing is left of its last
message. -/
theorem slot_arbiter_iff_slotFree (h : Throttle) (now : WakeupTime)
    (input output : ℕ → Option NetworkQueue) (hslot : h.SlotWakeup now input output)
    (hready : (h.pass input output).inReady now 2 = true ∨
      (h.pass input output).inReady now 6 = true) :
    ∃ w, h.wakeup now input output = .ok w ∧
      (WorkConserving now (h.pass input output) w ↔
        (h.pass input output).SlotFree now ((h.pass input output).slotVnet now) h.vnets) := by
  obtain ⟨k, hk⟩ := Nat.exists_eq_add_of_le hslot.vnets
  have hroom := hslot.room
  rw [hk] at hroom
  obtain ⟨w, fs, hbelow, hfs, hiff⟩ :=
    ThrottlePass.operateBelow_slot k hslot.start hroom hslot.wired hready
  have hforwarded : w.forwarded = fs := hfs.1
  refine ⟨w, ?_, ?_⟩
  · unfold Throttle.wakeup
    rw [if_pos hslot.bandwidth, hk]
    exact hbelow
  · rw [workConserving_iff hready fun f hf => (hfs.2 f (hforwarded ▸ hf)).2, hforwarded, hk]
    exact hiff

/-- The throttle of core 0, with ten networks and a link of 16000 units a cycle. -/
def coreThrottle : Throttle := TdmBus.default.throttles ⟨0, by decide⟩

def wakeupAt (t : ℕ) : WakeupTime := ⟨t, .tick t, .tick t⟩

theorem roomBelow_queuesOf_nil {h : Throttle} (hlatency : h.linkLatency = 1)
    (input : ℕ → Option NetworkQueue) (t n : ℕ) :
    (h.pass input (queuesOf [])).RoomBelow (wakeupAt t) n := by
  rintro v - q hq
  cases hq
  refine ⟨rfl, ?_⟩
  show MessageBuffer.Punctual _ _ h.linkLatency
  rw [hlatency]
  exact ⟨one_ne_zero, Nat.lt_succ_self t, nofun⟩

/-- Both are ready at the start of a write-back slot, and the write-back goes out. -/
theorem slot_arbiter_iff_slotFree_both_ready :
    ∃ w, coreThrottle.wakeup (wakeupAt 200)
        (queuesOf [(6, [⟨8, false, []⟩]), (2, [⟨8, false, []⟩])]) (queuesOf []) = .ok w ∧
      WorkConserving (wakeupAt 200) (coreThrottle.pass
        (queuesOf [(6, [⟨8, false, []⟩]), (2, [⟨8, false, []⟩])]) (queuesOf [])) w := by
  obtain ⟨w, hwakeup, hiff⟩ := slot_arbiter_iff_slotFree coreThrottle (wakeupAt 200)
    (queuesOf [(6, [⟨8, false, []⟩]), (2, [⟨8, false, []⟩])]) (queuesOf [])
    ⟨⟨by decide, rfl, by decide⟩, by decide, by decide, ⟨rfl, rfl, rfl, rfl⟩,
      roomBelow_queuesOf_nil rfl _ _ _⟩ (Or.inl rfl)
  exact ⟨w, hwakeup, hiff.mpr (by decide +kernel)⟩

/-- The throttle of core 0 after a write-back of 72 bytes: 16000 of its 72000 units are paid for. -/
def owingThrottle : Throttle :=
  { coreThrottle with unitsRemaining := Function.update (fun _ => 0) 6 56000 }

/-- A write-back of 72 bytes goes out at cycle 200.  At the start of the next write-back slot, cycle
600, the link pays for what is left of it, and the write-back that is ready stays where it is. -/
theorem slot_wasted_on_last_message :
    (∃ w, coreThrottle.wakeup (wakeupAt 200) (queuesOf [(6, [⟨72, false, []⟩])]) (queuesOf []) =
      .ok w ∧ ∀ v < 10, w.throttle.unitsRemaining v = owingThrottle.unitsRemaining v) ∧
    owingThrottle.SlotWakeup (wakeupAt 600) (queuesOf [(6, [⟨72, false, []⟩])]) (queuesOf []) ∧
    (owingThrottle.pass (queuesOf [(6, [⟨72, false, []⟩])]) (queuesOf [])).inReady
      (wakeupAt 600) 6 = true ∧
    ∃ w, owingThrottle.wakeup (wakeupAt 600) (queuesOf [(6, [⟨72, false, []⟩])]) (queuesOf []) =
        .ok w ∧
      ¬ WorkConserving (wakeupAt 600)
        (owingThrottle.pass (queuesOf [(6, [⟨72, false, []⟩])]) (queuesOf [])) w := by
  refine ⟨⟨_, rfl, by decide +kernel⟩, ⟨⟨by decide, rfl, by decide⟩, by decide, by decide,
    ⟨rfl, rfl, rfl, rfl⟩, roomBelow_queuesOf_nil rfl _ _ _⟩, rfl, _, rfl, fun h => ?_⟩
  obtain ⟨f, hf, -⟩ := h.one (Or.inr rfl)
  exact absurd hf (not_mem_nil (a := f))
