/-
# The bridge between two crossbars

`Bridge` (`src/mem/bridge.cc`): a slave port that takes requests and sends
responses, a master port that sends requests and takes responses, and between
them one queue for each direction.  Space for the response is reserved when a
request is accepted.

`sendTimingReq` and `sendTimingResp` call out of the bridge and may come back
into it before they return, so `trySendTiming` is cut in two at that call; what
happens in between is an interleaving of steps.  The peer's answer is fixed when
the call begins.  `sendRetryReq` is the last thing its callers do, so nothing is
left to run when it returns.

Both ports queue packets in the same way.  `TransmitQueue` is that part of them,
and `TransmitQueue.Armed` its invariant: a queue that is not empty has its send
event pending, a call under way, or a retry of the peer to come.
-/
import Mathlib
import Gem5.TransitionSystem

open List

/-! ## Transmit queues -/

structure DeferredPacket (α : Type) where
  tick : ℕ
  pkt : α

/-- `transmitList` and `sendEvent`; the event is the tick it is scheduled for. -/
structure TransmitQueue (α : Type) where
  transmitList : List (DeferredPacket α) := []
  sendEvent : Option ℕ := none

namespace TransmitQueue

variable {α : Type}

variable (q : TransmitQueue α)

/-- `schedule(sendEvent, when)` with the asserts of the event queue. -/
def schedule (now tick : ℕ) : Except Abort (TransmitQueue α) :=
  if now ≤ tick ∧ q.sendEvent = none then .ok { q with sendEvent := some tick }
  else .error .assertion

/-- `schedTimingReq` and `schedTimingResp`. -/
def schedTiming (now : ℕ) (pkt : α) (tick : ℕ) :
    Except Abort (TransmitQueue α) := do
  let q ← if q.transmitList = [] then q.schedule now tick else .ok q
  pure { q with transmitList := q.transmitList ++ [⟨tick, pkt⟩] }

/-- `trySendTiming` up to the call of the peer: the packet that is offered. -/
def offer (now : ℕ) : Except Abort α :=
  match q.transmitList with
  | [] => .error .assertion
  | x :: _ => if x.tick ≤ now then .ok x.pkt else .error .assertion

/-- After a successful send: pop the packet and schedule the next. -/
def sent (now clockEdge : ℕ) : Except Abort (TransmitQueue α) :=
  let q := { q with transmitList := q.transmitList.tail }
  match q.transmitList with
  | [] => .ok q
  | next :: _ => q.schedule now (max next.tick clockEdge)

/-- The packets in the queue. -/
def packets : List α := q.transmitList.map DeferredPacket.pkt

/-- How the front of the queue will get its chance: nothing is queued, the send event is pending,
the call of the peer is under way (`calling`), or the peer owes a retry (`retryDue`). -/
inductive Armed (now : ℕ) : TransmitQueue α → (calling retryDue : Bool) → Prop
  | empty : Armed now ⟨[], none⟩ false false
  | scheduled {x rest e} (htick : x.tick ≤ e) (hnow : now ≤ e) :
    Armed now ⟨x :: rest, some e⟩ false false
  | calling {x rest} (htick : x.tick ≤ now) : Armed now ⟨x :: rest, none⟩ true false
  | retry {x rest} (htick : x.tick ≤ now) : Armed now ⟨x :: rest, none⟩ false true

variable {q : TransmitQueue α} {now : ℕ} {calling retryDue : Bool}

/-- A packet is appended; only the first needs the event. -/
theorem Armed.schedTiming (h : Armed now q calling retryDue) (pkt : α) {tick : ℕ}
    (ht : now ≤ tick) :
    ∃ q', q.schedTiming now pkt tick = .ok q' ∧ Armed now q' calling retryDue ∧
      q'.packets = q.packets ++ [pkt] := by
  cases h with
  | empty =>
    refine ⟨⟨[⟨tick, pkt⟩], some tick⟩, ?_, .scheduled le_rfl ht, rfl⟩
    simp only [TransmitQueue.schedTiming, if_true, TransmitQueue.schedule, and_true, if_pos ht]
    rfl
  | scheduled htick hnow => exact ⟨_, rfl, .scheduled htick hnow, by simp [packets]⟩
  | calling htick => exact ⟨_, rfl, .calling htick, by simp [packets]⟩
  | retry htick => exact ⟨_, rfl, .retry htick, by simp [packets]⟩

/-- The send event fires at its tick: the front is offered. -/
theorem Armed.fire (h : Armed now q calling retryDue) (he : q.sendEvent = some now) :
    calling = false ∧ retryDue = false ∧
      ∃ pkt, { q with sendEvent := none }.offer now = .ok pkt ∧ q.packets.head? = some pkt ∧
        Armed now { q with sendEvent := none } true false := by
  cases h with
  | empty => cases he
  | @scheduled x rest e htick hnow =>
    obtain rfl : e = now := Option.some.inj he
    exact ⟨rfl, rfl, x.pkt, if_pos htick, rfl, .calling htick⟩
  | calling htick => cases he
  | retry htick => cases he

/-- The peer's retry: the front is offered again. -/
theorem Armed.retried (h : Armed now q calling true) :
    calling = false ∧ ∃ pkt, q.offer now = .ok pkt ∧ q.packets.head? = some pkt ∧
      Armed now q true false := by
  cases h with
  | @retry x rest htick => exact ⟨rfl, x.pkt, if_pos htick, rfl, .calling htick⟩

/-- The peer has taken the packet. -/
theorem Armed.sent (h : Armed now q true retryDue) {clockEdge : ℕ} (he : now ≤ clockEdge) :
    ∃ q', q.sent now clockEdge = .ok q' ∧ Armed now q' false false ∧
      q'.packets = q.packets.tail := by
  cases h with
  | @calling x rest htick =>
    cases rest with
    | nil => exact ⟨⟨[], none⟩, rfl, .empty, rfl⟩
    | cons y rest =>
      have hle : now ≤ max y.tick clockEdge := he.trans (le_max_right _ _)
      refine ⟨⟨y :: rest, some (max y.tick clockEdge)⟩, ?_, .scheduled (le_max_left _ _) hle, rfl⟩
      simp only [TransmitQueue.sent, tail_cons, TransmitQueue.schedule, and_true, if_pos hle]

/-- The peer has refused the packet and owes a retry. -/
theorem Armed.refused (h : Armed now q true retryDue) : Armed now q false true := by
  cases h with
  | calling htick => exact .retry htick

/-- Time passes, but not beyond the send event and not during a call. -/
theorem Armed.advance (h : Armed now q false retryDue) {t : ℕ} (ht : now < t)
    (he : ∀ e ∈ q.sendEvent, t ≤ e) : Armed t q false retryDue := by
  cases h with
  | empty => exact .empty
  | scheduled htick hnow => exact .scheduled htick (he _ rfl)
  | retry htick => exact .retry (htick.trans ht.le)

theorem Armed.packets_ne_nil (h : Armed now q true retryDue) : q.packets ≠ [] := by
  cases h with
  | calling htick => exact cons_ne_nil _ _

theorem Armed.waits (h : Armed now q calling retryDue) (hne : q.packets ≠ []) :
    q.sendEvent.isSome = true ∨ calling = true ∨ retryDue = true := by
  cases h with
  | empty => exact absurd rfl hne
  | scheduled => exact .inl rfl
  | calling => exact .inr (.inl rfl)
  | retry => exact .inr (.inr rfl)

end TransmitQueue

/-! ## The ports -/

/-- What the bridge reads of a packet. -/
structure BridgePacket where
  id : ℕ
  needsResponse : Bool
  memInhibitAsserted : Bool
  deriving DecidableEq, Repr

/-- `expects_response` in `recvTimingReq`. -/
def BridgePacket.expectsResponse (p : BridgePacket) : Bool := p.needsResponse && !p.memInhibitAsserted

structure BridgeSlavePort extends TransmitQueue BridgePacket where
  outstandingResponses : ℕ := 0
  retryReq : Bool := false
  respQueueLimit : ℕ

structure BridgeMasterPort extends TransmitQueue BridgePacket where
  reqQueueLimit : ℕ

structure Bridge where
  slavePort : BridgeSlavePort
  masterPort : BridgeMasterPort

def BridgeSlavePort.respQueueFull (p : BridgeSlavePort) : Bool :=
  p.outstandingResponses == p.respQueueLimit

def BridgeMasterPort.reqQueueFull (p : BridgeMasterPort) : Bool :=
  p.transmitList.length == p.reqQueueLimit

def BridgeMasterPort.schedTimingReq (p : BridgeMasterPort) (now : ℕ) (pkt : BridgePacket)
    (tick : ℕ) : Except Abort BridgeMasterPort :=
  if p.transmitList.length ≠ p.reqQueueLimit then do
    let q ← p.schedTiming now pkt tick
    pure { p with toTransmitQueue := q }
  else .error .assertion

def BridgeSlavePort.schedTimingResp (p : BridgeSlavePort) (now : ℕ) (pkt : BridgePacket)
    (tick : ℕ) : Except Abort BridgeSlavePort := do
  let q ← p.schedTiming now pkt tick
  pure { p with toTransmitQueue := q }

namespace Bridge

/-- `recvTimingReq(pkt)` at the tick `now`; `edge` is `clockEdge(delay)`. -/
def recvTimingReq (b : Bridge) (now : ℕ) (pkt : BridgePacket) (edge : ℕ) :
    Except Abort (Bool × Bridge) :=
  if b.slavePort.retryReq then .error .assertion
  else if b.masterPort.reqQueueFull then
    .ok (false, { b with slavePort := { b.slavePort with retryReq := true } })
  else if pkt.expectsResponse && b.slavePort.respQueueFull then
    .ok (false, { b with slavePort := { b.slavePort with retryReq := true } })
  else do
    let m ← b.masterPort.schedTimingReq now pkt edge
    pure (true, {
      masterPort := m
      slavePort := { b.slavePort with
        outstandingResponses := b.slavePort.outstandingResponses +
          if pkt.expectsResponse then 1 else 0 } })

/-- `recvTimingResp(pkt)`. -/
def recvTimingResp (b : Bridge) (now : ℕ) (pkt : BridgePacket) (edge : ℕ) :
    Except Abort Bridge := do
  let p ← b.slavePort.schedTimingResp now pkt edge
  pure { b with slavePort := p }

/-- The master's `trySendTiming` after `sendTimingReq` has returned; the flag tells whether
`sendRetryReq` is called. -/
def reqSent (b : Bridge) (now : ℕ) (success : Bool) (edge : ℕ) : Except Abort (Bool × Bridge) :=
  if success then do
    let q ← b.masterPort.sent now edge
    pure (b.slavePort.retryReq, {
      masterPort := { b.masterPort with toTransmitQueue := q }
      slavePort := { b.slavePort with retryReq := false } })
  else .ok (false, b)

/-- The slave's `trySendTiming` after `sendTimingResp` has returned. -/
def respSent (b : Bridge) (now : ℕ) (success : Bool) (edge : ℕ) : Except Abort (Bool × Bridge) :=
  if success then
    if b.slavePort.outstandingResponses = 0 then .error .assertion
    else do
      let q ← b.slavePort.sent now edge
      let retry := !b.masterPort.reqQueueFull && b.slavePort.retryReq
      pure (retry, { b with
        slavePort := { b.slavePort with
          toTransmitQueue := q
          outstandingResponses := b.slavePort.outstandingResponses - 1
          retryReq := b.slavePort.retryReq && !retry } })
  else .ok (false, b)

variable {b : Bridge} {now edge : ℕ} {pkt : BridgePacket}

theorem recvTimingReq_refused (hr : b.slavePort.retryReq = false)
    (hfull : b.masterPort.reqQueueFull = true ∨
      (pkt.expectsResponse && b.slavePort.respQueueFull) = true) :
    b.recvTimingReq now pkt edge =
      .ok (false, { b with slavePort := { b.slavePort with retryReq := true } }) := by
  unfold recvTimingReq
  rw [if_neg (by rw [hr]; exact Bool.false_ne_true)]
  rcases hfull with hfull | hfull
  · rw [if_pos hfull]
  · rw [if_pos hfull, ite_self]

theorem recvTimingReq_accepted {q : TransmitQueue BridgePacket}
    (hr : b.slavePort.retryReq = false) (hreq : ¬ b.masterPort.reqQueueFull = true)
    (hresp : ¬ (pkt.expectsResponse && b.slavePort.respQueueFull) = true)
    (hq : b.masterPort.schedTiming now pkt edge = .ok q) :
    b.recvTimingReq now pkt edge = .ok (true, {
      masterPort := { b.masterPort with toTransmitQueue := q }
      slavePort := { b.slavePort with
        outstandingResponses := b.slavePort.outstandingResponses +
          if pkt.expectsResponse then 1 else 0 } }) := by
  have hlen : b.masterPort.transmitList.length ≠ b.masterPort.reqQueueLimit :=
    fun heq => hreq (beq_of_eq heq)
  unfold recvTimingReq
  rw [if_neg (by rw [hr]; exact Bool.false_ne_true), if_neg hreq, if_neg hresp]
  unfold BridgeMasterPort.schedTimingReq
  rw [if_pos hlen, hq]
  rfl

end Bridge

theorem BridgeMasterPort.reqQueueFull_iff {p : BridgeMasterPort} :
    p.reqQueueFull = true ↔ p.packets.length = p.reqQueueLimit := by
  unfold BridgeMasterPort.reqQueueFull TransmitQueue.packets
  rw [length_map, beq_iff_eq]

/-! ## The bridge among its peers -/

/-- The bridge with the calls under way (and their answers), the peers' duties and what has passed
through: requests accepted and sent, responses received and sent, and the requests forwarded for
which a response is still to come. -/
structure BridgeSystem where
  bridge : Bridge
  now : ℕ := 0
  sendingReq : Option Bool := none
  sendingResp : Option Bool := none
  refused : Bool := false
  reqRetryDue : Bool := false
  respRetryDue : Bool := false
  accepted : List BridgePacket := []
  sentReqs : List BridgePacket := []
  awaited : List BridgePacket := []
  responses : List BridgePacket := []
  sentResps : List BridgePacket := []

inductive BridgeOp
  | recvTimingReq (pkt : BridgePacket) (edge : ℕ)
  | recvTimingResp (pkt : BridgePacket) (edge : ℕ)
  /-- The master's send event, or the peer's retry, with the answer of the peer. -/
  | sendReq (success : Bool)
  | recvReqRetry (success : Bool)
  | sendTimingReqReturns (edge : ℕ)
  /-- The same for the slave port. -/
  | sendResp (success : Bool)
  | recvRespRetry (success : Bool)
  | sendTimingRespReturns (edge : ℕ)
  | advance (t : ℕ)

/-- A bridge with the two limits. -/
def BridgeSystem.create (reqQueueLimit respQueueLimit : ℕ) : BridgeSystem where
  bridge := { slavePort := { respQueueLimit }, masterPort := { reqQueueLimit } }

namespace BridgeSystem

/-- The peer is offered a request: if it takes it, a response may come from now on. -/
def offerReq (s : BridgeSystem) (pkt : BridgePacket) (success : Bool) : BridgeSystem :=
  { s with
    sendingReq := some success
    awaited := if success && pkt.expectsResponse then s.awaited ++ [pkt] else s.awaited }

def step (s : BridgeSystem) : BridgeOp → Except Abort BridgeSystem
  | .recvTimingReq pkt edge => do
    let r ← s.bridge.recvTimingReq s.now pkt edge
    pure { s with
      bridge := r.2
      refused := !r.1
      accepted := if r.1 then s.accepted ++ [pkt] else s.accepted }
  | .recvTimingResp pkt edge => do
    let b ← s.bridge.recvTimingResp s.now pkt edge
    pure { s with
      bridge := b, awaited := s.awaited.erase pkt, responses := s.responses ++ [pkt] }
  | .sendReq success => do
    let q := { s.bridge.masterPort.toTransmitQueue with sendEvent := none }
    let pkt ← q.offer s.now
    let b := { s.bridge with masterPort := { s.bridge.masterPort with toTransmitQueue := q } }
    pure ({ s with bridge := b }.offerReq pkt success)
  | .recvReqRetry success => do
    let pkt ← s.bridge.masterPort.offer s.now
    pure ({ s with reqRetryDue := false }.offerReq pkt success)
  | .sendTimingReqReturns edge =>
    match s.sendingReq with
    | none => .error .undefined
    | some success => do
      let r ← s.bridge.reqSent s.now success edge
      pure { s with
        bridge := r.2
        sendingReq := none
        reqRetryDue := !success
        refused := s.refused && !r.1
        sentReqs := if success then s.sentReqs ++ s.bridge.masterPort.packets.take 1
          else s.sentReqs }
  | .sendResp success => do
    let q := { s.bridge.slavePort.toTransmitQueue with sendEvent := none }
    let _ ← q.offer s.now
    pure { s with
      bridge := { s.bridge with slavePort := { s.bridge.slavePort with toTransmitQueue := q } }
      sendingResp := some success }
  | .recvRespRetry success => do
    let _ ← s.bridge.slavePort.offer s.now
    pure { s with respRetryDue := false, sendingResp := some success }
  | .sendTimingRespReturns edge =>
    match s.sendingResp with
    | none => .error .undefined
    | some success => do
      let r ← s.bridge.respSent s.now success edge
      pure { s with
        bridge := r.2
        sendingResp := none
        respRetryDue := !success
        refused := s.refused && !r.1
        sentResps := if success then s.sentResps ++ s.bridge.slavePort.packets.take 1
          else s.sentResps }
  | .advance t => .ok { s with now := t }

/-- A request is not repeated before a retry; a response comes once for each request forwarded that
expects one; send events fire at their tick; the peers send one retry for each refusal; edges
of the clock are not in the past, and time stands still during a call. -/
def Polite (s : BridgeSystem) : BridgeOp → Prop
  | .recvTimingReq _ edge => s.refused = false ∧ s.now ≤ edge
  | .recvTimingResp pkt edge => pkt ∈ s.awaited ∧ s.now ≤ edge
  | .sendReq _ => s.bridge.masterPort.sendEvent = some s.now
  | .recvReqRetry _ => s.reqRetryDue = true
  | .sendTimingReqReturns edge => s.sendingReq ≠ none ∧ s.now ≤ edge
  | .sendResp _ => s.bridge.slavePort.sendEvent = some s.now
  | .recvRespRetry _ => s.respRetryDue = true
  | .sendTimingRespReturns edge => s.sendingResp ≠ none ∧ s.now ≤ edge
  | .advance t => s.sendingReq = none ∧ s.sendingResp = none ∧ s.now < t ∧
    (∀ e ∈ s.bridge.masterPort.sendEvent, t ≤ e) ∧ ∀ e ∈ s.bridge.slavePort.sendEvent, t ≤ e

instance (s : BridgeSystem) : (op : BridgeOp) → Decidable (s.Polite op)
  | .recvTimingReq _ _ | .sendTimingReqReturns _ | .sendTimingRespReturns _ =>
    inferInstanceAs (Decidable (_ ∧ _))
  | .recvTimingResp pkt edge => inferInstanceAs (Decidable (pkt ∈ s.awaited ∧ s.now ≤ edge))
  | .sendReq _ | .recvReqRetry _ | .sendResp _ | .recvRespRetry _ =>
    inferInstanceAs (Decidable (_ = _))
  | .advance t =>
    inferInstanceAs (Decidable (s.sendingReq = none ∧ s.sendingResp = none ∧ s.now < t ∧
      (∀ e ∈ s.bridge.masterPort.sendEvent, t ≤ e) ∧ ∀ e ∈ s.bridge.slavePort.sendEvent, t ≤ e))

/-! ## The invariant -/

/-- The queued requests that no response can answer yet: all but one that is just being taken. -/
def unsent (sending : Option Bool) (packets : List BridgePacket) : List BridgePacket :=
  if sending = some true then packets.tail else packets

/-- The queues are armed and within their limits, nothing is lost or reordered, every reservation
is for a request on its way out, one at the peer or a response on its way back, and a refused
request has something to wait for. -/
structure Balanced (s : BridgeSystem) (m n : ℕ) : Prop where
  reqs : s.bridge.masterPort.Armed s.now s.sendingReq.isSome s.reqRetryDue
  resps : s.bridge.slavePort.Armed s.now s.sendingResp.isSome s.respRetryDue
  reqLimit : s.bridge.masterPort.packets.length ≤ s.bridge.masterPort.reqQueueLimit
  respLimit : s.bridge.slavePort.outstandingResponses ≤ s.bridge.slavePort.respQueueLimit
  reqOrder : s.accepted = s.sentReqs ++ s.bridge.masterPort.packets
  respOrder : s.responses = s.sentResps ++ s.bridge.slavePort.packets
  reserved : s.bridge.slavePort.outstandingResponses =
    (unsent s.sendingReq s.bridge.masterPort.packets).countP BridgePacket.expectsResponse +
      s.awaited.length + s.bridge.slavePort.packets.length
  counted : s.accepted.countP BridgePacket.expectsResponse =
    s.bridge.slavePort.outstandingResponses + s.sentResps.length
  refuses : s.refused = s.bridge.slavePort.retryReq
  waits : s.bridge.slavePort.retryReq = true → s.bridge.masterPort.packets ≠ [] ∨
    s.bridge.slavePort.outstandingResponses = s.bridge.slavePort.respQueueLimit
  positive : 0 < s.bridge.masterPort.reqQueueLimit ∧ 0 < s.bridge.slavePort.respQueueLimit
  limits : s.bridge.masterPort.reqQueueLimit = m ∧ s.bridge.slavePort.respQueueLimit = n

/-- A full request queue is not empty. -/
theorem Balanced.packets_ne_nil_of_full {s : BridgeSystem} {m n : ℕ} (h : s.Balanced m n)
    (hfull : s.bridge.masterPort.reqQueueFull = true) : s.bridge.masterPort.packets ≠ [] := by
  apply ne_nil_of_length_pos
  rw [BridgeMasterPort.reqQueueFull_iff.mp hfull]
  exact h.positive.1

theorem balanced_create {m n : ℕ} (hm : 0 < m) (hn : 0 < n) : (create m n).Balanced m n where
  reqs := .empty
  resps := .empty
  reqLimit := Nat.zero_le _
  respLimit := Nat.zero_le _
  reqOrder := rfl
  respOrder := rfl
  reserved := rfl
  counted := rfl
  refuses := rfl
  waits := nofun
  positive := ⟨hm, hn⟩
  limits := ⟨rfl, rfl⟩

variable {s : BridgeSystem} {m n : ℕ} {pkt : BridgePacket} {edge : ℕ}

/-! ## The request side -/

/-- A request joins at the back, so it is not the one that is being taken. -/
theorem Balanced.unsent_append (h : s.Balanced m n) :
    unsent s.sendingReq (s.bridge.masterPort.packets ++ [pkt]) =
      unsent s.sendingReq s.bridge.masterPort.packets ++ [pkt] := by
  unfold unsent
  split
  · rename_i hsome
    have hreqs := h.reqs
    rw [hsome] at hreqs
    exact tail_append_of_ne_nil hreqs.packets_ne_nil
  · rfl

theorem Balanced.recvTimingReq (h : s.Balanced m n) (hok : s.Polite (.recvTimingReq pkt edge)) :
    ∃ t, s.step (.recvTimingReq pkt edge) = .ok t ∧ t.Balanced m n := by
  obtain ⟨href, hedge⟩ := hok
  have hretry : s.bridge.slavePort.retryReq = false := by rw [← h.refuses, href]
  by_cases hfull : s.bridge.masterPort.reqQueueFull = true ∨
      (pkt.expectsResponse && s.bridge.slavePort.respQueueFull) = true
  · -- refused: there is a request in the queue, or every response is reserved
    refine ⟨{ s with
      bridge := { s.bridge with slavePort := { s.bridge.slavePort with retryReq := true } }
      refused := true }, ?_, ?_⟩
    · simp only [step, Bridge.recvTimingReq_refused hretry hfull]
      rfl
    · refine { h with refuses := rfl, waits := fun _ => ?_ }
      rcases hfull with hfull | hfull
      · exact .inl (h.packets_ne_nil_of_full hfull)
      · exact .inr (eq_of_beq (Bool.and_eq_true_iff.mp hfull).2)
  · obtain ⟨hreq, hresp⟩ := not_or.mp hfull
    obtain ⟨q, hq, harmed, hpackets⟩ := h.reqs.schedTiming pkt hedge
    refine ⟨{ s with
      bridge := {
        masterPort := { s.bridge.masterPort with toTransmitQueue := q }
        slavePort := { s.bridge.slavePort with
          outstandingResponses := s.bridge.slavePort.outstandingResponses +
            if pkt.expectsResponse then 1 else 0 } }
      refused := false
      accepted := s.accepted ++ [pkt] }, ?_, ?_⟩
    · simp only [step, Bridge.recvTimingReq_accepted hretry hreq hresp hq]
      rfl
    · exact {
        reqs := harmed
        resps := h.resps
        reqLimit := by
          have hne := mt BridgeMasterPort.reqQueueFull_iff.mpr hreq
          have hle := h.reqLimit
          show q.packets.length ≤ _
          rw [hpackets, length_append, length_singleton]
          exact lt_of_le_of_ne hle hne
        respLimit := by
          -- a reservation is made only if there is room for one
          have hle := h.respLimit
          show _ + (if pkt.expectsResponse = true then 1 else 0) ≤ _
          split
          · rename_i hexp
            refine lt_of_le_of_ne hle fun heq => hresp ?_
            rw [hexp]
            exact beq_of_eq heq
          · exact hle
        reqOrder := by
          show s.accepted ++ [pkt] = s.sentReqs ++ q.packets
          rw [hpackets, h.reqOrder, append_assoc]
        respOrder := h.respOrder
        reserved := by
          show _ + _ = (unsent s.sendingReq q.packets).countP _ + s.awaited.length + _
          rw [hpackets, h.unsent_append, countP_append, countP_singleton, h.reserved]
          ac_rfl
        counted := by
          show countP _ (s.accepted ++ [pkt]) = _ + _ + s.sentResps.length
          rw [countP_append, countP_singleton, h.counted]
          ac_rfl
        refuses := hretry.symm
        waits := fun hr => absurd (hr.symm.trans hretry) (by decide)
        positive := h.positive
        limits := h.limits }

/-- The front of the queue is offered to the peer.  If the peer takes it, the response it may send
before the call returns is the one that was reserved. -/
theorem Balanced.offered (h : s.Balanced m n) (hs : s.sendingReq = none)
    {q : TransmitQueue BridgePacket} (hp : q.packets = s.bridge.masterPort.packets)
    (hd : q.packets.head? = some pkt) {due : Bool} (hq : q.Armed s.now true due) (success : Bool) :
    ({ s with
      bridge := { s.bridge with masterPort := { s.bridge.masterPort with toTransmitQueue := q } }
      reqRetryDue := due }.offerReq pkt success).Balanced m n := by
  refine { h with reqs := hq, reqLimit := hp ▸ h.reqLimit, reqOrder := hp ▸ h.reqOrder,
                  reserved := ?_, waits := hp ▸ h.waits }
  have hres := h.reserved
  rw [hs, ← hp] at hres
  cases success with
  | false => exact hres
  | true =>
    have hcons : q.packets = pkt :: q.packets.tail := eq_cons_of_mem_head? hd
    change _ = q.packets.countP _ + _ + _ at hres
    rw [hcons, countP_cons] at hres
    show s.bridge.slavePort.outstandingResponses = q.packets.tail.countP _ +
      (if pkt.expectsResponse then s.awaited ++ [pkt] else s.awaited).length + _
    rw [hres]
    split
    · rw [length_append, length_singleton]
      ac_rfl
    · rfl

theorem Balanced.sendReq {success : Bool} (h : s.Balanced m n) (hok : s.Polite (.sendReq success)) :
    ∃ t, s.step (.sendReq success) = .ok t ∧ t.Balanced m n := by
  obtain ⟨hs, hdue, pkt, hoffer, hhead, harmed⟩ := h.reqs.fire hok
  rw [← hdue] at harmed
  refine ⟨_, ?_, h.offered (Option.isSome_eq_false_iff.mp hs |> Option.isNone_iff_eq_none.mp)
    (q := { s.bridge.masterPort.toTransmitQueue with sendEvent := none }) rfl hhead harmed success⟩
  simp only [step, hoffer]
  rfl

theorem Balanced.recvReqRetry {success : Bool} (h : s.Balanced m n)
    (hok : s.Polite (.recvReqRetry success)) :
    ∃ t, s.step (.recvReqRetry success) = .ok t ∧ t.Balanced m n := by
  have hreqs := h.reqs
  rw [hok] at hreqs
  obtain ⟨hs, pkt, hoffer, hhead, harmed⟩ := hreqs.retried
  refine ⟨_, ?_, h.offered (Option.isSome_eq_false_iff.mp hs |> Option.isNone_iff_eq_none.mp) rfl
    hhead harmed success⟩
  simp only [step, hoffer]
  rfl

theorem Balanced.sendTimingReqReturns (h : s.Balanced m n)
    (hok : s.Polite (.sendTimingReqReturns edge)) :
    ∃ t, s.step (.sendTimingReqReturns edge) = .ok t ∧ t.Balanced m n := by
  obtain ⟨hsome, hedge⟩ := hok
  obtain ⟨success, hs⟩ := Option.ne_none_iff_exists'.mp hsome
  have hreqs := h.reqs
  rw [hs] at hreqs
  have hres := h.reserved
  rw [hs] at hres
  cases success with
  | false =>
    refine ⟨{ s with sendingReq := none, reqRetryDue := true, refused := s.refused && true }, ?_, ?_⟩
    · simp only [step, hs, Bridge.reqSent, Bool.false_eq_true, if_false]
      rfl
    · exact { h with
        reqs := hreqs.refused, reserved := hres, refuses := (Bool.and_true _).trans h.refuses }
  | true =>
    obtain ⟨q, hq, harmed, hpackets⟩ := hreqs.sent hedge
    have htail : unsent none q.packets = unsent (some true) s.bridge.masterPort.packets := hpackets
    refine ⟨{ s with
      bridge := {
        masterPort := { s.bridge.masterPort with toTransmitQueue := q }
        slavePort := { s.bridge.slavePort with retryReq := false } }
      sendingReq := none
      reqRetryDue := false
      refused := s.refused && !s.bridge.slavePort.retryReq
      sentReqs := s.sentReqs ++ s.bridge.masterPort.packets.take 1 }, ?_, ?_⟩
    · simp only [step, hs, Bridge.reqSent, if_true, hq]
      rfl
    · refine { h with
        reqs := harmed
        reqLimit := ?_
        reqOrder := ?_
        reserved := ?_
        refuses := by
          rw [h.refuses]
          exact Bool.and_not_self _
        waits := nofun }
      · show q.packets.length ≤ _
        rw [hpackets, length_tail]
        exact (Nat.sub_le _ _).trans h.reqLimit
      · show s.accepted = s.sentReqs ++ take 1 _ ++ q.packets
        rw [h.reqOrder, append_assoc, hpackets, ← drop_one, take_append_drop]
      · show _ = (unsent none q.packets).countP _ + _ + _
        rw [htail]
        exact hres

/-! ## The response side -/

theorem Balanced.recvTimingResp (h : s.Balanced m n) (hok : s.Polite (.recvTimingResp pkt edge)) :
    ∃ t, s.step (.recvTimingResp pkt edge) = .ok t ∧ t.Balanced m n := by
  obtain ⟨hmem, hedge⟩ := hok
  obtain ⟨q, hq, harmed, hpackets⟩ := h.resps.schedTiming pkt hedge
  refine ⟨{ s with
    bridge := { s.bridge with slavePort := { s.bridge.slavePort with toTransmitQueue := q } }
    awaited := s.awaited.erase pkt
    responses := s.responses ++ [pkt] }, ?_, ?_⟩
  · simp only [step, Bridge.recvTimingResp, BridgeSlavePort.schedTimingResp, hq]
    rfl
  · refine { h with resps := harmed, respOrder := ?_, reserved := ?_ }
    · show s.responses ++ [pkt] = s.sentResps ++ q.packets
      rw [hpackets, h.respOrder, append_assoc]
    · have hpos := length_pos_of_mem hmem
      have hres := h.reserved
      show s.bridge.slavePort.outstandingResponses =
        (unsent s.sendingReq s.bridge.masterPort.packets).countP _ +
          (s.awaited.erase pkt).length + q.packets.length
      rw [hpackets, length_append, length_singleton, length_erase_of_mem hmem]
      omega

theorem Balanced.sendResp {success : Bool} (h : s.Balanced m n) (hok : s.Polite (.sendResp success)) :
    ∃ t, s.step (.sendResp success) = .ok t ∧ t.Balanced m n := by
  obtain ⟨hs, hdue, pkt, hoffer, -, harmed⟩ := h.resps.fire hok
  rw [← hdue] at harmed
  refine ⟨_, ?_, ({ h with resps := harmed } : BridgeSystem.Balanced { s with
    bridge := { s.bridge with slavePort := { s.bridge.slavePort with sendEvent := none } }
    sendingResp := some success } m n)⟩
  simp only [step, hoffer]
  rfl

theorem Balanced.recvRespRetry {success : Bool} (h : s.Balanced m n)
    (hok : s.Polite (.recvRespRetry success)) :
    ∃ t, s.step (.recvRespRetry success) = .ok t ∧ t.Balanced m n := by
  have hresps := h.resps
  rw [hok] at hresps
  obtain ⟨-, pkt, hoffer, -, harmed⟩ := hresps.retried
  refine ⟨_, ?_, ({ h with resps := harmed } : BridgeSystem.Balanced { s with
    respRetryDue := false
    sendingResp := some success } m n)⟩
  simp only [step, hoffer]
  rfl

theorem Balanced.sendTimingRespReturns (h : s.Balanced m n)
    (hok : s.Polite (.sendTimingRespReturns edge)) :
    ∃ t, s.step (.sendTimingRespReturns edge) = .ok t ∧ t.Balanced m n := by
  obtain ⟨hsome, hedge⟩ := hok
  obtain ⟨success, hs⟩ := Option.ne_none_iff_exists'.mp hsome
  have hresps := h.resps
  rw [hs] at hresps
  cases success with
  | false =>
    refine ⟨{ s with sendingResp := none, respRetryDue := true, refused := s.refused && true }, ?_,
      ?_⟩
    · simp only [step, hs, Bridge.respSent, Bool.false_eq_true, if_false]
      rfl
    · exact { h with resps := hresps.refused, refuses := (Bool.and_true _).trans h.refuses }
  | true =>
    -- the response that has left held a reservation
    have hpos := length_pos_of_ne_nil hresps.packets_ne_nil
    have hres := h.reserved
    have hout : s.bridge.slavePort.outstandingResponses ≠ 0 := by omega
    obtain ⟨q, hq, harmed, hpackets⟩ := hresps.sent hedge
    refine ⟨{ s with
      bridge := { s.bridge with
        slavePort := { s.bridge.slavePort with
          toTransmitQueue := q
          outstandingResponses := s.bridge.slavePort.outstandingResponses - 1
          retryReq := s.bridge.slavePort.retryReq &&
            !(!s.bridge.masterPort.reqQueueFull && s.bridge.slavePort.retryReq) } }
      sendingResp := none
      respRetryDue := false
      refused := s.refused && !(!s.bridge.masterPort.reqQueueFull && s.bridge.slavePort.retryReq)
      sentResps := s.sentResps ++ s.bridge.slavePort.packets.take 1 }, ?_, ?_⟩
    · simp only [step, hs, Bridge.respSent, if_true, if_neg hout, hq]
      rfl
    · refine { h with
        resps := harmed
        respLimit := (Nat.sub_le _ _).trans h.respLimit
        respOrder := ?_
        reserved := ?_
        counted := ?_
        refuses := congrArg (· && _) h.refuses
        waits := fun hr => .inl (h.packets_ne_nil_of_full ?_) }
      · show s.responses = s.sentResps ++ take 1 _ ++ q.packets
        rw [h.respOrder, append_assoc, hpackets, ← drop_one, take_append_drop]
      · show s.bridge.slavePort.outstandingResponses - 1 =
          (unsent s.sendingReq s.bridge.masterPort.packets).countP _ + s.awaited.length +
            q.packets.length
        rw [hpackets, length_tail]
        omega
      · have hcounted := h.counted
        show s.accepted.countP _ = s.bridge.slavePort.outstandingResponses - 1 +
          (s.sentResps ++ take 1 _).length
        rw [length_append, length_take]
        omega
      · -- the flag survives only a full request queue
        revert hr
        show (_ && !(!s.bridge.masterPort.reqQueueFull && _)) = true → _
        cases s.bridge.masterPort.reqQueueFull <;> cases s.bridge.slavePort.retryReq <;> decide

theorem Balanced.advance {t : ℕ} (h : s.Balanced m n) (hok : s.Polite (.advance t)) :
    ∃ s', s.step (.advance t) = .ok s' ∧ s'.Balanced m n := by
  obtain ⟨hreq, hresp, hlt, hmaster, hslave⟩ := hok
  have hreqs := h.reqs
  have hresps := h.resps
  rw [hreq] at hreqs
  rw [hresp] at hresps
  refine ⟨{ s with now := t }, rfl, { h with reqs := ?_, resps := ?_ }⟩
  · rw [hreq]
    exact hreqs.advance hlt hmaster
  · rw [hresp]
    exact hresps.advance hlt hslave

/-! ## Whole runs -/

/-- No assert fails, and the invariant is kept. -/
theorem Balanced.step {op : BridgeOp} (h : s.Balanced m n) (hok : s.Polite op) :
    ∃ t, s.step op = .ok t ∧ t.Balanced m n :=
  match op with
  | .recvTimingReq _ _ => h.recvTimingReq hok
  | .recvTimingResp _ _ => h.recvTimingResp hok
  | .sendReq _ => h.sendReq hok
  | .recvReqRetry _ => h.recvReqRetry hok
  | .sendTimingReqReturns _ => h.sendTimingReqReturns hok
  | .sendResp _ => h.sendResp hok
  | .recvRespRetry _ => h.recvRespRetry hok
  | .sendTimingRespReturns _ => h.sendTimingRespReturns hok
  | .advance _ => h.advance hok

theorem balanced_of_runs {ops : List BridgeOp} (hm : 0 < m) (hn : 0 < n)
    (h : Runs (Within BridgeSystem.step Polite) (create m n) ops s) : s.Balanced m n :=
  h.invariant_of_progress (P := fun s => s.Balanced m n) (fun _ _ hs hok => hs.step hok)
    (balanced_create hm hn)

end BridgeSystem

/-- **Flow control of the bridge.**  In every run no assert fails at the next event; the request
queue and the reservations keep to their limits; a reservation is held from the moment a request
that expects a response is accepted until the response has left; requests and responses leave once
and in the order they came; a queue that is not empty has its event pending, is being sent from or
waits for the peer's retry; and a refused request waits for a request or a response to leave. -/
theorem bridge_flow_control {m n : ℕ} {ops : List BridgeOp} {s : BridgeSystem} (hm : 0 < m)
    (hn : 0 < n)
    (h : Runs (Within BridgeSystem.step BridgeSystem.Polite) (BridgeSystem.create m n) ops s) :
    (∀ op, s.Polite op → ∃ t, s.step op = .ok t) ∧
    s.bridge.masterPort.packets.length ≤ m ∧
    s.accepted.countP BridgePacket.expectsResponse =
      s.bridge.slavePort.outstandingResponses + s.sentResps.length ∧
    s.bridge.slavePort.outstandingResponses ≤ n ∧
    s.accepted = s.sentReqs ++ s.bridge.masterPort.packets ∧
    s.responses = s.sentResps ++ s.bridge.slavePort.packets ∧
    (s.bridge.masterPort.packets ≠ [] → s.bridge.masterPort.sendEvent.isSome = true ∨
      s.sendingReq.isSome = true ∨ s.reqRetryDue = true) ∧
    (s.bridge.slavePort.packets ≠ [] → s.bridge.slavePort.sendEvent.isSome = true ∨
      s.sendingResp.isSome = true ∨ s.respRetryDue = true) ∧
    s.refused = s.bridge.slavePort.retryReq ∧
    (s.bridge.slavePort.retryReq = true → s.bridge.masterPort.packets ≠ [] ∨
      s.bridge.slavePort.outstandingResponses = n) := by
  have hs := BridgeSystem.balanced_of_runs hm hn h
  have hreq := hs.reqLimit
  have hresp := hs.respLimit
  have hwaits := hs.waits
  rw [hs.limits.1] at hreq
  rw [hs.limits.2] at hresp hwaits
  refine ⟨?_, hreq, hs.counted, hresp, hs.reqOrder, hs.respOrder, hs.reqs.waits, hs.resps.waits,
    hs.refuses, hwaits⟩
  intro op hok
  obtain ⟨t, ht, -⟩ := hs.step hok
  exact ⟨t, ht⟩

/-- With room for one request and one response, the second request is refused, and refused again
after the first has been sent on: its response, which comes from inside the call, still holds the
only reservation. -/
theorem bridge_flow_control_reentrant :
    let load : ℕ → BridgePacket := fun i => ⟨i, true, false⟩
    ∃ s : BridgeSystem, Runs (Within BridgeSystem.step BridgeSystem.Polite) (.create 1 1)
        [.recvTimingReq (load 0) 5, .recvTimingReq (load 1) 5, .advance 5, .sendReq true,
          .recvTimingResp (load 0) 9, .sendTimingReqReturns 6, .recvTimingReq (load 1) 9] s ∧
      (s.bridge.slavePort.retryReq = true ∧ s.bridge.slavePort.outstandingResponses = 1 ∧
        s.bridge.slavePort.sendEvent = some 9) ∧
      (∀ op, s.Polite op → ∃ t, s.step op = .ok t) ∧
      s.bridge.masterPort.packets.length ≤ 1 ∧
      s.accepted.countP BridgePacket.expectsResponse =
        s.bridge.slavePort.outstandingResponses + s.sentResps.length ∧
      s.bridge.slavePort.outstandingResponses ≤ 1 ∧
      s.accepted = s.sentReqs ++ s.bridge.masterPort.packets ∧
      s.responses = s.sentResps ++ s.bridge.slavePort.packets ∧
      (s.bridge.masterPort.packets ≠ [] → s.bridge.masterPort.sendEvent.isSome = true ∨
        s.sendingReq.isSome = true ∨ s.reqRetryDue = true) ∧
      (s.bridge.slavePort.packets ≠ [] → s.bridge.slavePort.sendEvent.isSome = true ∨
        s.sendingResp.isSome = true ∨ s.respRetryDue = true) ∧
      s.refused = s.bridge.slavePort.retryReq ∧
      (s.bridge.slavePort.retryReq = true → s.bridge.masterPort.packets ≠ [] ∨
        s.bridge.slavePort.outstandingResponses = 1) := by
  intro load
  refine exists_runs_and_of_execWithin (by decide +kernel) ?_
  intro s hrun _
  exact bridge_flow_control (by decide) (by decide) hrun
