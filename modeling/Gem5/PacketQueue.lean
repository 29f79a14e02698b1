/-
# Packet queues

`PacketQueue` (`src/mem/packet_queue.cc`), which the ports of caches and crossbars use to
send packets later: a list in order of ticks, an event for the first packet and a flag for
a peer that refused it and owes a retry.

`sendDeferredPacket` takes the packet off the list before it calls the peer, since the
peer may queue new packets before it returns.  It is cut in two at that call, and what
happens in between is an interleaving of steps; only a peer that accepts queues
packets.

A packet for `MaxTick` gets no event: `schedSendEvent` takes this tick as a sign that
there is nothing to send (`packet_at_maxTick_not_scheduled`).

Packets are numbered in the order in which they are queued.  Ticks are numbers of 64 bits,
and only `curTick() + 1` can overflow.  Draining is left out.

* `PacketQueue.schedSendTiming`, `PacketQueue.schedSendEvent` — as in the source.
* `emplace`           — where a packet goes in the list, in all cases.
* `Phase`             — how the first packet will get its chance.
* `QueueSystem.order` — the packets sent and queued, in one list that only grows.
-/
import Mathlib
import Gem5.TransitionSystem
import Gem5.Bridge

open List

/-! ## The queue -/

/-- `MaxTick`. -/
def maxTick : ℕ := 2 ^ 64 - 1

/-- Behind all packets that are not later. -/
def emplace (d : DeferredPacket ℕ) : List (DeferredPacket ℕ) → List (DeferredPacket ℕ)
  | [] => [d]
  | x :: l => if x.tick ≤ d.tick then x :: emplace d l else d :: x :: l

/-- In order of ticks, and packets of the same tick in the order in which they were queued. -/
def Goes (x y : DeferredPacket ℕ) : Prop := x.tick < y.tick ∨ x.tick = y.tick ∧ x.pkt < y.pkt

/-- The packets to send, the tick of the event if it is scheduled, and whether a retry is due. -/
structure PacketQueue where
  transmitList : List (DeferredPacket ℕ) := []
  sendEvent : Option ℕ := none
  waitingOnRetry : Bool := false

namespace PacketQueue

variable (q : PacketQueue)

/-- `schedule` and `reschedule`, with the assertion of the event queue. -/
def schedule (curTick tick : ℕ) : Except Abort PacketQueue :=
  if curTick ≤ tick then .ok { q with sendEvent := some tick } else .error .assertion

/-- Schedule the event, unless a retry is due; `MaxTick` stands for an empty list. -/
def schedSendEvent (curTick tick : ℕ) : Except Abort PacketQueue :=
  if q.waitingOnRetry then
    if q.sendEvent = none then .ok q else .error .assertion
  else if tick ≠ maxTick then
    let tick := max tick ((curTick + 1) % 2 ^ 64)
    match q.sendEvent with
    | none => q.schedule curTick tick
    | some e => if tick < e then q.schedule curTick tick else .ok q
  else .ok q

/-- The tick after `force_order`: not before that of the last packet. -/
def forceOrder (l : List (DeferredPacket ℕ)) (force : Bool) (tick : ℕ) : ℕ :=
  match l.getLast? with
  | none => tick
  | some back => if force = true ∧ tick < back.tick then back.tick else tick

/-- Queue a packet for `tick`; `express` is its `isExpressSnoop()`. -/
def schedSendTiming (curTick pkt : ℕ) (express : Bool) (tick : ℕ) (force : Bool) :
    Except Abort PacketQueue :=
  if tick < curTick then .error .assertion
  else if express then .error .assertion
  else if 100 < q.transmitList.length then .error .assertion
  else
    let d : DeferredPacket ℕ := ⟨forceOrder q.transmitList force tick, pkt⟩
    match q.transmitList with
    | [] => { q with transmitList := [d] }.schedSendEvent curTick d.tick
    | front :: rest =>
      if d.tick < front.tick then
        if force then .error .assertion
        else { q with transmitList := d :: front :: rest }.schedSendEvent curTick d.tick
      else if ((front :: rest).getLast (List.cons_ne_nil _ _)).tick ≤ d.tick then
        .ok { q with transmitList := front :: rest ++ [d] }
      else if force then .error .assertion
      else .ok { q with transmitList := front :: emplace d rest }

/-- The tick of the first packet. -/
def deferredPacketReadyTime : ℕ :=
  match q.transmitList with
  | [] => maxTick
  | front :: _ => front.tick

/-- `sendDeferredPacket` up to the call of the peer: the packet is off the list. -/
def takeDeferred (curTick : ℕ) :
    Except Abort (DeferredPacket ℕ × PacketQueue) :=
  match q.waitingOnRetry, q.transmitList with
  | false, front :: rest =>
    if front.tick ≤ curTick then .ok (front, { q with transmitList := rest })
    else .error .assertion
  | _, _ => .error .assertion

/-- The rest of it: the peer accepted the packet or not. -/
def putBack (curTick : ℕ) (dp : DeferredPacket ℕ) (accepted : Bool) :
    Except Abort PacketQueue :=
  let q := { q with waitingOnRetry := !accepted }
  if accepted then q.schedSendEvent curTick q.deferredPacketReadyTime
  else .ok { q with transmitList := dp :: q.transmitList }

/-- `retry` up to the call of the peer. -/
def retry (curTick : ℕ) : Except Abort (DeferredPacket ℕ × PacketQueue) :=
  if q.waitingOnRetry then { q with waitingOnRetry := false }.takeDeferred curTick
  else .error .assertion

/-- `processSendEvent` up to the call of the peer; the event is not scheduled any more. -/
def processSendEvent (curTick : ℕ) :
    Except Abort (DeferredPacket ℕ × PacketQueue) :=
  { q with sendEvent := none }.takeDeferred curTick

end PacketQueue

/-! ## The system -/

/-- Time passes, a packet is queued, the event or a retry calls the peer, the peer returns. -/
inductive QueueOp
  | advance (tick : ℕ)
  | sched (express : Bool) (tick : ℕ) (force : Bool)
  | event
  | retry
  | reply (accepted : Bool)

/-- The queue, the packet that the peer is called with and whether nothing was queued since, how
many packets were queued, and those that the peer took. -/
structure QueueSystem where
  queue : PacketQueue := {}
  curTick : ℕ := 0
  sending : Option (DeferredPacket ℕ × Bool) := none
  next : ℕ := 0
  sent : List ℕ := []

namespace QueueSystem

variable (s : QueueSystem)

/-- One call, or one half of a call that sends. -/
def step : QueueOp → Except Abort QueueSystem
  | .advance tick => .ok { s with curTick := tick }
  | .sched express tick force => do
    let queue ← s.queue.schedSendTiming s.curTick s.next express tick force
    return { s with
      queue
      next := s.next + 1
      sending := s.sending.map fun x => (x.1, false) }
  | .event => do
    let (dp, queue) ← s.queue.processSendEvent s.curTick
    return { s with queue, sending := some (dp, true) }
  | .retry => do
    let (dp, queue) ← s.queue.retry s.curTick
    return { s with queue, sending := some (dp, true) }
  | .reply accepted =>
    match s.sending with
    | none => .error .undefined
    | some (dp, _) => do
      let queue ← s.queue.putBack s.curTick dp accepted
      return { s with
        queue
        sending := none
        sent := if accepted then s.sent ++ [dp.pkt] else s.sent }

/-- How the calls come: no packet is an express snoop, ticks are not in the past and the queue is
not full, time does not go beyond the event, the event comes at its tick and a retry after a
refusal, and a peer that queued packets does not refuse. -/
def Called : QueueOp → Prop
  | .advance tick => s.sending = none ∧ s.curTick ≤ tick ∧ tick < 2 ^ 64 ∧
      ∀ e ∈ s.queue.sendEvent, tick ≤ e
  | .sched express tick _ => express = false ∧ s.curTick ≤ tick ∧ tick < 2 ^ 64 ∧
      s.queue.transmitList.length < 100
  | .event => s.sending = none ∧ s.queue.sendEvent = some s.curTick
  | .retry => s.sending = none ∧ s.queue.waitingOnRetry = true
  | .reply accepted => ∃ x ∈ s.sending, accepted = false → x.2 = true

/-- The calls name ticks before `MaxTick`. -/
def Timely (op : QueueOp) : Prop :=
  s.Called op ∧
    match op with
    | .advance tick => tick < maxTick
    | .sched _ tick _ => tick < maxTick
    | _ => True

instance (s : QueueSystem) (op : QueueOp) : Decidable (s.Called op) := by
  unfold Called
  split <;> infer_instance

instance (s : QueueSystem) (op : QueueOp) : Decidable (s.Timely op) := by
  unfold Timely
  split <;> infer_instance

/-- All packets, those that were sent first. -/
def order : List ℕ :=
  s.sent ++ (s.sending.map (·.1.pkt)).toList ++ s.queue.transmitList.map DeferredPacket.pkt

/-- The first packet waits for a retry, or the event is scheduled for its tick or the next one. -/
def Attended : Prop :=
  ∀ front ∈ s.queue.transmitList.head?,
    s.queue.waitingOnRetry = true ∧ s.queue.sendEvent = none ∨
      s.queue.waitingOnRetry = false ∧
        ∃ e, s.queue.sendEvent = some e ∧ e ≤ max front.tick (s.curTick + 1)

end QueueSystem

/-! ## The list -/

section List

variable {d : DeferredPacket ℕ} {l : List (DeferredPacket ℕ)}

theorem Goes.tick_le {x y : DeferredPacket ℕ} (h : Goes x y) : x.tick ≤ y.tick := by
  rcases h with h | h
  · exact h.le
  · exact h.1.le

theorem emplace_perm : (emplace d l).Perm (d :: l) := by
  induction l with
  | nil => exact .refl _
  | cons x l ih =>
    rw [emplace]
    split
    · exact (ih.cons x).trans (.swap d x l)
    · exact .refl _

theorem sublist_emplace : l.Sublist (emplace d l) := by
  induction l with
  | nil => exact nil_sublist _
  | cons x l ih =>
    rw [emplace]
    split
    · exact ih.cons_cons x
    · exact sublist_cons_self _ _

theorem emplace_goes (h : l.Pairwise Goes) (hd : ∀ x ∈ l, x.pkt < d.pkt) :
    (emplace d l).Pairwise Goes := by
  induction l with
  | nil => exact pairwise_singleton _ _
  | cons x l ih =>
    obtain ⟨hx, hl⟩ := pairwise_cons.mp h
    rw [emplace]
    split
    · rename_i hle
      refine pairwise_cons.mpr ⟨?_, ih hl fun y hy => hd y (mem_cons_of_mem _ hy)⟩
      intro y hy
      rcases mem_cons.mp (emplace_perm.subset hy) with rfl | hy
      · have hpkt := hd x mem_cons_self
        rcases lt_or_eq_of_le hle with hlt | heq
        · exact .inl hlt
        · exact .inr ⟨heq, hpkt⟩
      · exact hx y hy
    · rename_i hlt
      refine pairwise_cons.mpr ⟨?_, h⟩
      intro y hy
      rcases mem_cons.mp hy with rfl | hy
      · exact .inl (not_le.mp hlt)
      · exact .inl ((not_le.mp hlt).trans_le (hx y hy).tick_le)

theorem emplace_of_le (h : ∀ x ∈ l, x.tick ≤ d.tick) : emplace d l = l ++ [d] := by
  induction l with
  | nil => rfl
  | cons x l ih =>
    rw [emplace, if_pos (h x mem_cons_self), ih fun y hy => h y (mem_cons_of_mem _ hy)]
    rfl

theorem tick_le_getLast (h : l.Pairwise Goes) (hne : l ≠ []) :
    ∀ x ∈ l, x.tick ≤ (l.getLast hne).tick := by
  intro x hx
  rw [← dropLast_append_getLast hne] at h hx
  rcases mem_append.mp hx with hx | hx
  · exact ((pairwise_append.mp h).2.2 x hx _ mem_cons_self).tick_le
  · rw [mem_singleton.mp hx]

/-- With `force_order` the packet goes behind all others. -/
theorem tick_le_forceOrder (h : l.Pairwise Goes) (tick : ℕ) :
    ∀ x ∈ l, x.tick ≤ PacketQueue.forceOrder l true tick := by
  intro x hx
  have hne := ne_nil_of_mem hx
  have hlast := tick_le_getLast h hne x hx
  rw [PacketQueue.forceOrder, getLast?_eq_some_getLast hne]
  dsimp only
  split
  · exact hlast
  · rename_i hnot
    have := not_and.mp hnot rfl
    omega

end List

namespace PacketQueue

variable {q : PacketQueue} {curTick tick pkt : ℕ} {force : Bool}

theorem le_forceOrder (l : List (DeferredPacket ℕ)) : tick ≤ forceOrder l force tick := by
  rw [forceOrder]
  split
  · exact le_rfl
  · split
    · rename_i h
      exact h.2.le
    · exact le_rfl

theorem forceOrder_lt {l : List (DeferredPacket ℕ)} {m : ℕ} (hl : ∀ x ∈ l, x.tick < m)
    (ht : tick < m) : forceOrder l force tick < m := by
  rw [forceOrder]
  split
  · exact ht
  · rename_i back hback
    split
    · exact hl back (mem_of_getLast? hback)
    · exact ht

/-- In all cases the packet goes to its place in the order, and a new first packet is scheduled;
no assertion fails. -/
theorem schedSendTiming_eq (h : q.transmitList.Pairwise Goes) (hcur : curTick ≤ tick)
    (hlen : q.transmitList.length < 100) :
    q.schedSendTiming curTick pkt false tick force =
      let d : DeferredPacket ℕ := ⟨forceOrder q.transmitList force tick, pkt⟩
      if ∀ x ∈ q.transmitList.head?, d.tick < x.tick then
        { q with transmitList := emplace d q.transmitList }.schedSendEvent curTick d.tick
      else .ok { q with transmitList := emplace d q.transmitList } := by
  rw [schedSendTiming, if_neg (by omega), if_neg Bool.false_ne_true, if_neg (by omega)]
  have hforce := fun hf : force = true => hf ▸ tick_le_forceOrder h tick
  obtain ⟨l, e, w⟩ := q
  dsimp only at h hforce ⊢
  match l with
  | [] => rfl
  | front :: rest =>
    dsimp only
    by_cases hfront : forceOrder (front :: rest) force tick < front.tick
    · have hnot : ¬ force = true := by
        intro hf
        have := hforce hf front mem_cons_self
        omega
      rw [if_pos hfront, if_neg hnot, if_pos (by simpa using hfront), emplace,
        if_neg (not_le.mpr hfront)]
    · have hhead : ¬ ∀ x ∈ (front :: rest).head?,
          forceOrder (front :: rest) force tick < x.tick := by simpa using hfront
      rw [if_neg hfront, if_neg hhead, emplace, if_pos (not_lt.mp hfront)]
      have hne := cons_ne_nil front rest
      by_cases hback : ((front :: rest).getLast hne).tick ≤ forceOrder (front :: rest) force tick
      · have hall : ∀ x ∈ rest, x.tick ≤ forceOrder (front :: rest) force tick := by
          intro x hx
          exact (tick_le_getLast h hne x (mem_cons_of_mem _ hx)).trans hback
        rw [if_pos hback, emplace_of_le hall]
        rfl
      · have hnot : ¬ force = true := by
          intro hf
          exact hback (hforce hf _ (getLast_mem hne))
        rw [if_neg hback, if_neg hnot]

end PacketQueue

/-! ## The event -/

/-- How the first packet will get its chance.  While the peer is called, no packet may be on the
list, or one without an event, which is scheduled when the peer returns. -/
inductive Phase (curTick : ℕ) : PacketQueue → Option (DeferredPacket ℕ × Bool) → Prop
  | idle : Phase curTick ⟨[], none, false⟩ none
  | scheduled {x rest e} (htick : x.tick ≤ e) (hcur : curTick ≤ e)
      (he : e ≤ max x.tick (curTick + 1)) : Phase curTick ⟨x :: rest, some e, false⟩ none
  | waiting {x rest} (htick : x.tick ≤ curTick) : Phase curTick ⟨x :: rest, none, true⟩ none
  | calling {l d fresh} (htick : d.tick ≤ curTick) :
      Phase curTick ⟨l, none, false⟩ (some (d, fresh))
  | overtaken {x rest e d} (htick : x.tick ≤ e) (hcur : curTick ≤ e)
      (he : e ≤ max x.tick (curTick + 1)) (hd : d.tick ≤ curTick) :
      Phase curTick ⟨x :: rest, some e, false⟩ (some (d, false))

namespace PacketQueue

/-- The event for a new first packet. -/
theorem schedSendEvent_none {l : List (DeferredPacket ℕ)} {curTick tick : ℕ}
    (hcur : curTick < maxTick) (htick : tick < maxTick) :
    ({ transmitList := l, sendEvent := none } : PacketQueue).schedSendEvent curTick tick =
      .ok { transmitList := l, sendEvent := some (max tick (curTick + 1)) } := by
  have hmax : (curTick + 1) % 2 ^ 64 = curTick + 1 := by
    unfold maxTick at hcur
    omega
  rw [schedSendEvent, if_neg Bool.false_ne_true, if_pos htick.ne]
  dsimp only
  rw [hmax, schedule, if_pos (by omega)]

/-- An event that is there is moved if it is later. -/
theorem schedSendEvent_some {l : List (DeferredPacket ℕ)} {curTick tick e : ℕ}
    (hcur : curTick < maxTick) (htick : tick < maxTick) :
    ({ transmitList := l, sendEvent := some e } : PacketQueue).schedSendEvent curTick tick =
      .ok { transmitList := l, sendEvent := some (min e (max tick (curTick + 1))) } := by
  have hmax : (curTick + 1) % 2 ^ 64 = curTick + 1 := by
    unfold maxTick at hcur
    omega
  rw [schedSendEvent, if_neg Bool.false_ne_true, if_pos htick.ne]
  dsimp only
  rw [hmax]
  split
  · rename_i hlt
    rw [schedule, if_pos (by omega), min_eq_right hlt.le]
  · rename_i hle
    rw [min_eq_left (not_lt.mp hle)]

end PacketQueue

theorem emplace_head {d x : DeferredPacket ℕ} {l : List (DeferredPacket ℕ)}
    (h : ¬ d.tick < x.tick) : emplace d (x :: l) = x :: emplace d l := by
  rw [emplace, if_pos (not_lt.mp h)]

theorem emplace_front {d : DeferredPacket ℕ} {l : List (DeferredPacket ℕ)}
    (h : ∀ x ∈ l.head?, d.tick < x.tick) : emplace d l = d :: l := by
  match l with
  | [] => rfl
  | x :: l => rw [emplace, if_neg (not_le.mpr (h x rfl))]

/-- A packet is queued in any phase. -/
theorem Phase.sched {q : PacketQueue} {sending : Option (DeferredPacket ℕ × Bool)}
    {curTick tick : ℕ} (pkt : ℕ) (force : Bool) (h : Phase curTick q sending)
    (hsorted : q.transmitList.Pairwise Goes) (hlen : q.transmitList.length < 100)
    (hcur : curTick ≤ tick) (htick : tick < maxTick)
    (hticks : ∀ x ∈ q.transmitList, x.tick < maxTick) :
    ∃ q', q.schedSendTiming curTick pkt false tick force = .ok q' ∧
      q'.transmitList =
        emplace ⟨PacketQueue.forceOrder q.transmitList force tick, pkt⟩ q.transmitList ∧
      Phase curTick q' (sending.map fun x => (x.1, false)) := by
  rw [PacketQueue.schedSendTiming_eq hsorted hcur hlen]
  have hle : tick ≤ PacketQueue.forceOrder q.transmitList force tick :=
    PacketQueue.le_forceOrder q.transmitList
  have hlt : PacketQueue.forceOrder q.transmitList force tick < maxTick :=
    PacketQueue.forceOrder_lt hticks htick
  have hcurMax : curTick < maxTick := by omega
  revert hle hlt
  generalize PacketQueue.forceOrder q.transmitList force tick = tick'
  intro hle hlt
  cases h with
  | idle =>
    refine ⟨_, PacketQueue.schedSendEvent_none hcurMax hlt, rfl, ?_⟩
    exact .scheduled (le_max_left _ _) (by omega) le_rfl
  | @scheduled x rest e hx hc he =>
    by_cases hfront : tick' < x.tick
    · have hhead : ∀ y ∈ (x :: rest).head?, tick' < y.tick := by simpa using hfront
      rw [if_pos hhead, emplace_front hhead]
      refine ⟨_, PacketQueue.schedSendEvent_some hcurMax hlt, rfl, ?_⟩
      exact .scheduled (by dsimp only; omega) (by omega) (by dsimp only; omega)
    · rw [if_neg (by simpa using hfront), emplace_head hfront]
      exact ⟨_, rfl, rfl, .scheduled hx hc he⟩
  | @waiting x rest hx =>
    have hfront : ¬ tick' < x.tick := by omega
    rw [if_neg (by simpa using hfront), emplace_head hfront]
    exact ⟨_, rfl, rfl, .waiting hx⟩
  | @calling l d fresh hd =>
    by_cases hhead : ∀ x ∈ l.head?, tick' < x.tick
    · rw [if_pos hhead, emplace_front hhead]
      refine ⟨_, PacketQueue.schedSendEvent_none hcurMax hlt, rfl, ?_⟩
      exact .overtaken (le_max_left _ _) (by omega) le_rfl hd
    · rw [if_neg hhead]
      exact ⟨_, rfl, rfl, .calling hd⟩
  | @overtaken x rest e d hx hc he hd =>
    by_cases hfront : tick' < x.tick
    · have hhead : ∀ y ∈ (x :: rest).head?, tick' < y.tick := by simpa using hfront
      rw [if_pos hhead, emplace_front hhead]
      refine ⟨_, PacketQueue.schedSendEvent_some hcurMax hlt, rfl, ?_⟩
      exact .overtaken (by dsimp only; omega) (by omega) (by dsimp only; omega) hd
    · rw [if_neg (by simpa using hfront), emplace_head hfront]
      exact ⟨_, rfl, rfl, .overtaken hx hc he hd⟩

/-- The peer took the packet: the next one is scheduled, if there is one. -/
theorem Phase.accepted {q : PacketQueue} {curTick : ℕ} {d : DeferredPacket ℕ} {fresh : Bool}
    (h : Phase curTick q (some (d, fresh))) (hcur : curTick < maxTick)
    (hticks : ∀ x ∈ q.transmitList, x.tick < maxTick) :
    ∃ q', q.putBack curTick d true = .ok q' ∧ q'.transmitList = q.transmitList ∧
      Phase curTick q' none := by
  cases h with
  | @calling l _ _ htick =>
    match l with
    | [] => exact ⟨_, rfl, rfl, .idle⟩
    | x :: rest =>
      refine ⟨_, PacketQueue.schedSendEvent_none hcur (hticks x mem_cons_self), rfl, ?_⟩
      exact .scheduled (le_max_left _ _) (by omega) le_rfl
  | @overtaken x rest e _ htick hc he hd =>
    refine ⟨⟨x :: rest, some (min e (max x.tick (curTick + 1))), false⟩,
      PacketQueue.schedSendEvent_some hcur (hticks x mem_cons_self), rfl, ?_⟩
    exact .scheduled (by omega) (by omega) (min_le_right _ _)

/-! ## Runs -/

namespace QueueSystem

variable {s t : QueueSystem}

/-- The invariant. -/
structure Sound (s : QueueSystem) : Prop where
  sorted : s.queue.transmitList.Pairwise Goes
  resumes : ∀ d, s.sending = some (d, true) → (d :: s.queue.transmitList).Pairwise Goes
  curTick_lt : s.curTick < maxTick
  tick_lt : ∀ x ∈ s.queue.transmitList, x.tick < maxTick
  perm : s.order.Perm (List.range s.next)
  phase : Phase s.curTick s.queue s.sending

/-- A step adds packets to the order, and does not take back what was sent. -/
structure Extends (s t : QueueSystem) : Prop where
  order : s.order.Sublist t.order
  sent : s.sent <+: t.sent

theorem Extends.refl (s : QueueSystem) : Extends s s := ⟨List.Sublist.refl _, prefix_refl _⟩

theorem Extends.of_eq (h : t.order = s.order) (hsent : t.sent = s.sent) : Extends s t := by
  refine ⟨?_, ?_⟩
  · rw [h]
  · rw [hsent]

theorem Extends.trans {u : QueueSystem} (h : Extends s t) (h' : Extends t u) : Extends s u :=
  ⟨h.order.trans h'.order, h.sent.trans h'.sent⟩

theorem sound_initial : Sound {} where
  sorted := List.Pairwise.nil
  resumes := fun d hd => by cases hd
  curTick_lt := by decide
  tick_lt := fun x hx => absurd hx not_mem_nil
  perm := List.Perm.refl _
  phase := .idle

/-- Packets in the list have smaller numbers than the next one. -/
theorem Sound.pkt_lt (h : s.Sound) : ∀ x ∈ s.queue.transmitList, x.pkt < s.next := by
  intro x hx
  apply mem_range.mp
  apply h.perm.subset
  exact mem_append_right _ (mem_map_of_mem hx)

/-- The state after a packet was queued. -/
def queued (s : QueueSystem) (q : PacketQueue) : QueueSystem :=
  { s with queue := q, next := s.next + 1, sending := s.sending.map fun x => (x.1, false) }

variable {q : PacketQueue} {tick : ℕ} {d : DeferredPacket ℕ}

theorem order_queued : (s.queued q).order =
    s.sent ++ (s.sending.map (·.1.pkt)).toList ++ q.transmitList.map DeferredPacket.pkt := by
  rw [order, queued, Option.map_map]
  rfl

theorem Sound.queued (h : s.Sound) (htick : tick < maxTick)
    (hlist : q.transmitList = emplace ⟨tick, s.next⟩ s.queue.transmitList)
    (hphase : Phase s.curTick q (s.sending.map fun x => (x.1, false))) : (s.queued q).Sound := by
  constructor
  · show q.transmitList.Pairwise Goes
    rw [hlist]
    exact emplace_goes h.sorted h.pkt_lt
  · intro d hd
    obtain ⟨x, -, hx⟩ := Option.map_eq_some_iff.mp hd
    cases (Prod.mk.inj hx).2
  · exact h.curTick_lt
  · intro x hx
    have hmem : x ∈ emplace ⟨tick, s.next⟩ s.queue.transmitList := hlist ▸ hx
    rcases mem_cons.mp (emplace_perm.subset hmem) with rfl | hx
    · exact htick
    · exact h.tick_lt x hx
  · rw [order_queued, hlist]
    have hperm := (emplace_perm (d := ⟨tick, s.next⟩) (l := s.queue.transmitList)).map
      DeferredPacket.pkt
    have hrange : (s.next :: range s.next).Perm (range (s.next + 1)) := by
      rw [range_succ]
      exact (perm_append_singleton _ _).symm
    exact ((hperm.append_left _).trans perm_middle).trans ((h.perm.cons _).trans hrange)
  · exact hphase

theorem Extends.queued (hlist : q.transmitList = emplace d s.queue.transmitList) : Extends s
    (s.queued q) := by
  refine ⟨?_, prefix_refl _⟩
  rw [order_queued, hlist]
  exact (sublist_emplace.map _).append_left _

/-- A packet is queued; with `force_order` it is the last one. -/
theorem Sound.sched (h : s.Sound) {express force : Bool}
    (hop : s.Timely (.sched express tick force)) :
    ∃ t, s.step (.sched express tick force) = .ok t ∧ t.Sound ∧ Extends s t ∧
      (force = true → t.order = s.order ++ [s.next]) := by
  obtain ⟨⟨rfl, hcur, -, hlen⟩, htick⟩ := hop
  obtain ⟨q, hq, hlist, hphase⟩ := h.phase.sched s.next force h.sorted hlen hcur htick h.tick_lt
  refine ⟨s.queued q, ?_, h.queued (PacketQueue.forceOrder_lt h.tick_lt htick) hlist hphase,
    .queued hlist, ?_⟩
  · rw [step, hq]
    rfl
  · rintro rfl
    rw [order_queued, hlist, emplace_of_le (tick_le_forceOrder h.sorted tick), map_append,
      ← append_assoc]
    rfl

/-- The call of the peer begins with the first packet. -/
theorem Sound.take (h : s.Sound) {front : DeferredPacket ℕ} {rest : List (DeferredPacket ℕ)}
    (hsending : s.sending = none)
    (hlist : s.queue.transmitList = front :: rest) (hfront : front.tick ≤ s.curTick)
    (hq : q = { transmitList := rest }) :
    ({ s with queue := q, sending := some (front, true) } : QueueSystem).Sound ∧
      Extends s { s with queue := q, sending := some (front, true) } := by
  subst hq
  have hsorted := h.sorted
  have hticks := h.tick_lt
  rw [hlist] at hsorted hticks
  have horder : ({ s with queue := { transmitList := rest }, sending := some (front, true) } :
      QueueSystem).order = s.order := by
    rw [order, order, hsending, hlist]
    simp
  refine ⟨⟨?_, ?_, h.curTick_lt, ?_, ?_, .calling hfront⟩, .of_eq horder rfl⟩
  · exact (pairwise_cons.mp hsorted).2
  · intro d hd
    obtain ⟨rfl, -⟩ := Prod.mk.inj (Option.some.inj hd)
    exact hsorted
  · exact fun x hx => hticks x (mem_cons_of_mem _ hx)
  · rw [horder]
    exact h.perm

theorem Sound.event (h : s.Sound) (hop : s.Timely .event) :
    ∃ t, s.step .event = .ok t ∧ t.Sound ∧ Extends s t := by
  obtain ⟨⟨hsending, hevent⟩, -⟩ := hop
  have hphase := h.phase
  rw [hsending] at hphase
  obtain ⟨q, curTick, sending, next, sent⟩ := s
  cases hphase with
  | @scheduled x rest e htick hcur he =>
    obtain rfl := Option.some.inj hevent
    refine ⟨_, ?_, h.take hsending rfl htick rfl⟩
    rw [step, PacketQueue.processSendEvent, PacketQueue.takeDeferred]
    dsimp only
    rw [if_pos htick]
    rfl
  | idle => cases hevent
  | waiting => cases hevent

theorem Sound.retry (h : s.Sound) (hop : s.Timely .retry) :
    ∃ t, s.step .retry = .ok t ∧ t.Sound ∧ Extends s t := by
  obtain ⟨⟨hsending, hwaiting⟩, -⟩ := hop
  have hphase := h.phase
  rw [hsending] at hphase
  obtain ⟨q, curTick, sending, next, sent⟩ := s
  cases hphase with
  | @waiting x rest htick =>
    refine ⟨_, ?_, h.take hsending rfl htick rfl⟩
    rw [step, PacketQueue.retry, PacketQueue.takeDeferred]
    dsimp only
    rw [if_pos htick]
    rfl
  | idle => cases hwaiting
  | scheduled => cases hwaiting

theorem Sound.reply_true (h : s.Sound) {fresh : Bool}
    (hsending : s.sending = some (d, fresh)) :
    ∃ t, s.step (.reply true) = .ok t ∧ t.Sound ∧ Extends s t := by
  have hphase := h.phase
  rw [hsending] at hphase
  obtain ⟨q, hq, hlist, hphase⟩ := hphase.accepted h.curTick_lt h.tick_lt
  have horder : ({ s with queue := q, sending := none, sent := s.sent ++ [d.pkt] } :
      QueueSystem).order = s.order := by
    rw [order, order, hsending, hlist]
    simp
  refine ⟨{ s with queue := q, sending := none, sent := s.sent ++ [d.pkt] }, ?_, ?_, ?_⟩
  · rw [step, hsending]
    dsimp only
    rw [hq]
    rfl
  · refine ⟨hlist ▸ h.sorted, ?_, h.curTick_lt, hlist ▸ h.tick_lt, horder ▸ h.perm, hphase⟩
    intro d' hd'
    cases hd'
  · exact ⟨by rw [horder], prefix_append _ _⟩

/-- The peer refused the packet, which goes back to the front. -/
theorem Sound.reply_false (h : s.Sound) (hsending : s.sending = some (d, true)) :
    ∃ t, s.step (.reply false) = .ok t ∧ t.Sound ∧ Extends s t := by
  have hphase := h.phase
  have hresumes := h.resumes d hsending
  rw [hsending] at hphase
  obtain ⟨q, curTick, sending, next, sent⟩ := s
  cases hphase with
  | @calling l _ _ htick =>
    subst hsending
    have horder : (QueueSystem.mk ⟨d :: l, none, true⟩ curTick none next sent).order =
        (QueueSystem.mk ⟨l, none, false⟩ curTick (some (d, true)) next sent).order := by
      simp [order]
    refine ⟨⟨⟨d :: l, none, true⟩, curTick, none, next, sent⟩, rfl, ?_, .of_eq horder rfl⟩
    refine ⟨hresumes, ?_, h.curTick_lt, ?_, horder ▸ h.perm, .waiting htick⟩
    · intro d' hd'
      cases hd'
    · intro x hx
      rcases mem_cons.mp hx with rfl | hx
      · exact htick.trans_lt h.curTick_lt
      · exact h.tick_lt x hx

theorem Sound.advance (h : s.Sound) (hop : s.Timely (.advance tick)) :
    ∃ t, s.step (.advance tick) = .ok t ∧ t.Sound ∧ Extends s t := by
  obtain ⟨⟨hsending, hcur, -, hevent⟩, htick⟩ := hop
  refine ⟨_, rfl, ⟨h.sorted, h.resumes, htick, h.tick_lt, h.perm, ?_⟩, .of_eq rfl rfl⟩
  have hphase := h.phase
  obtain ⟨q, curTick, sending, next, sent⟩ := s
  dsimp only at hsending hcur hevent hphase ⊢
  subst hsending
  cases hphase with
  | idle => exact .idle
  | @scheduled x rest e hx hc he => exact .scheduled hx (hevent e rfl) (by omega)
  | waiting hx => exact .waiting (hx.trans hcur)

/-- No assertion fails, and every step keeps the invariant and only adds to the order. -/
theorem Sound.step (h : s.Sound) {op : QueueOp} (hop : s.Timely op) :
    ∃ t, s.step op = .ok t ∧ t.Sound ∧ Extends s t := by
  match op with
  | .advance tick => exact h.advance hop
  | .sched express tick force =>
    obtain ⟨t, hstep, ht, hext, -⟩ := h.sched hop
    exact ⟨t, hstep, ht, hext⟩
  | .event => exact h.event hop
  | .retry => exact h.retry hop
  | .reply true =>
    obtain ⟨⟨⟨d, fresh⟩, hd, -⟩, -⟩ := hop
    exact h.reply_true hd
  | .reply false =>
    obtain ⟨⟨⟨d, fresh⟩, hd, hfresh⟩, -⟩ := hop
    obtain rfl : fresh = true := hfresh rfl
    exact h.reply_false hd

theorem Sound.attended (h : s.Sound) (hsending : s.sending = none) : s.Attended := by
  have hphase := h.phase
  rw [hsending] at hphase
  intro front hfront
  obtain ⟨q, curTick, sending, next, sent⟩ := s
  cases hphase with
  | idle => cases hfront
  | scheduled _ _ he =>
    cases hfront
    exact .inr ⟨rfl, _, rfl, he⟩
  | waiting => exact .inl ⟨rfl, rfl⟩

theorem Sound.extends_of_runs {ops : List QueueOp} (h : s.Sound)
    (hrun : Runs (Within QueueSystem.step Timely) s ops t) : t.Sound ∧ Extends s t := by
  refine hrun.invariant_of_progress (P := fun t => t.Sound ∧ Extends s t) ?_ ⟨h, .refl s⟩
  rintro t op ⟨ht, hext⟩ hop
  obtain ⟨u, hstep, hu, hext'⟩ := ht.step hop
  exact ⟨u, hstep, hu, hext.trans hext'⟩

/-- **Order and progress of a packet queue** in every run with ticks before `MaxTick`: the list is
in order, every packet is either sent, being sent or queued, once, the first packet is attended to,
no call fails, and later the packets are in the same order, those that were sent first.  A packet
queued with `force_order` comes last. -/
theorem packet_queue_order {ops : List QueueOp} (h : Runs (Within step Timely) {} ops s) :
    s.queue.transmitList.Pairwise Goes ∧ s.order.Perm (List.range s.next) ∧
      (s.sending = none → s.Attended) ∧
      (∀ op, s.Timely op → ∃ t, s.step op = .ok t) ∧
      (∀ ops' t, Runs (Within step Timely) s ops' t → Extends s t) ∧
      ∀ express tick t, s.Timely (.sched express tick true) →
        s.step (.sched express tick true) = .ok t → t.order = s.order ++ [s.next] := by
  have hs : s.Sound := (sound_initial.extends_of_runs h).1
  refine ⟨hs.sorted, hs.perm, hs.attended, ?_, ?_, ?_⟩
  · intro op hop
    obtain ⟨t, ht, -⟩ := hs.step hop
    exact ⟨t, ht⟩
  · intro ops' t hrun
    exact (hs.extends_of_runs hrun).2
  · intro express tick t hop ht
    obtain ⟨t', ht', -, -, horder⟩ := hs.sched hop
    rw [ht] at ht'
    cases ht'
    exact horder rfl

/-- Packets for the ticks 10 and 20.  While the peer takes the first, it queues one for tick 11,
which goes between them and is refused once. -/
theorem packet_queue_order_reentrant :
    ∃ s, Runs (Within step Timely) {}
        [.sched false 10 false, .sched false 20 true, .advance 10, .event, .sched false 11 false,
          .reply true, .advance 11, .event, .reply false, .advance 15, .retry, .reply true] s ∧
      s.order = [0, 2, 1] ∧ s.sent = [0, 2] ∧ s.Attended := by
  refine exists_runs_imp_of_execWithin (P := fun s =>
    s.order = [0, 2, 1] ∧ s.sent = [0, 2] ∧ s.sending = none)
    (by decide +kernel) ?_
  rintro s hrun ⟨horder, hsent, hsending⟩
  exact ⟨horder, hsent, (packet_queue_order hrun).2.2.1 hsending⟩

/-- A packet for `MaxTick` is queued: nothing is scheduled, and no retry is due. -/
theorem packet_at_maxTick_not_scheduled :
    ∃ s, Runs (Within step Called) {} [.sched false maxTick false] s ∧
      s.sending = none ∧ ¬ s.Attended := by
  refine exists_runs_imp_of_execWithin (P := fun s =>
    s.sending = none ∧ s.queue.transmitList.head?.isSome = true ∧
      s.queue.waitingOnRetry = false ∧ s.queue.sendEvent = none) (by decide +kernel) ?_
  rintro s - ⟨hsending, hlist, hwaiting, hevent⟩
  refine ⟨hsending, ?_⟩
  intro hattended
  obtain ⟨front, hfront⟩ := Option.isSome_iff_exists.mp hlist
  rcases hattended front hfront with ⟨hw, -⟩ | ⟨-, e, he, -⟩
  · rw [hwaiting] at hw
    cases hw
  · rw [hevent] at he
    cases he

end QueueSystem
