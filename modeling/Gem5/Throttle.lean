/-
# The throttles of the time-division bus

A `Throttle` (`src/mem/ruby/network/simple/Throttle.cc`) moves messages from the
output queues of a switch to a link.  The throttles into the central switch
make the bus: the one of core `i` (`m_sID < 4`) may forward ordinary requests
(virtual network 2) and write-backs (virtual network 6) only at the start of
the slot of core `i`, and `vToken` says which of the two a slot is for; the one
of the shared memory (`m_sID == 4`) answers the owner of the running slot.

The compile-time switches are those of `Trace.hh`: `BASELINE`, `WB_RANDOM`,
`READ_WB_RANDOM` and `WRITE_HITS` are 0.  Statistics are left out.
-/
import Gem5.MessageBuffer

open List

/-! ## Slots -/

/-- The number of cores. -/
def NPROC : ℕ := 4

/-- The cycles of a slot. -/
def SLOT_WIDTH : ℕ := 50

/-- `MESSAGE_SIZE_MULTIPLIER`. -/
def MESSAGE_SIZE_MULTIPLIER : ℕ := 1000

variable (curCycle : ℕ)

/-- A slot starts in this cycle. -/
def isStartOfSlot : Bool :=
  (List.range NPROC).any fun i => curCycle % (NPROC * SLOT_WIDTH) == i * SLOT_WIDTH

/-- `getSlotOwner`, which returns -1 if no slot matches. -/
def getSlotOwner : Option ℕ :=
  (List.range NPROC).find? fun i => decide (curCycle % (NPROC * SLOT_WIDTH) < (i + 1) * SLOT_WIDTH)

/-- In every round. -/
def isStartDemandSlot : Bool :=
  (List.range NPROC).any fun i => curCycle % (NPROC * SLOT_WIDTH) == i * SLOT_WIDTH

/-- In every second round. -/
def isStartWBSlot : Bool :=
  (List.range NPROC).any fun i =>
    curCycle % (2 * (NPROC * SLOT_WIDTH)) == (i + NPROC) * SLOT_WIDTH

/-- The slots go round the cores. -/
theorem getSlotOwner_eq (t : ℕ) : getSlotOwner t = some (t / SLOT_WIDTH % NPROC) := by
  unfold getSlotOwner
  rw [find?_range_eq_some]
  simp only [NPROC, SLOT_WIDTH, mem_range, Bool.not_eq_true']
  exact ⟨decide_eq_true (by omega), by omega, fun j hj => decide_eq_false (by omega)⟩

theorem mod_eq_zero_of_isStartOfSlot {t : ℕ} (h : isStartOfSlot t = true) : t % SLOT_WIDTH = 0 := by
  obtain ⟨i, -, hmod⟩ := any_eq_true.mp h
  have hmod : t % (NPROC * SLOT_WIDTH) = i * SLOT_WIDTH := by simpa using hmod
  simp only [NPROC, SLOT_WIDTH] at hmod ⊢
  omega

/-- A cycle that starts a slot starts the slot of the owner. -/
theorem mod_eq_of_isStartOfSlot {t i : ℕ} (hstart : isStartOfSlot t = true)
    (howner : getSlotOwner t = some i) : t % (NPROC * SLOT_WIDTH) = i * SLOT_WIDTH := by
  obtain ⟨j, -, hmod⟩ := any_eq_true.mp hstart
  have hmod : t % (NPROC * SLOT_WIDTH) = j * SLOT_WIDTH := by simpa using hmod
  obtain ⟨hi, -, hleast⟩ := find?_range_eq_some.mp howner
  have hi : t % (NPROC * SLOT_WIDTH) < (i + 1) * SLOT_WIDTH := by simpa using hi
  have hleast : ¬ j < i := by
    intro hji
    have hnot : ¬ t % (NPROC * SLOT_WIDTH) < (j + 1) * SLOT_WIDTH := by simpa using hleast j hji
    rw [hmod] at hnot
    simp only [SLOT_WIDTH] at hnot
    omega
  rw [hmod] at hi ⊢
  simp only [SLOT_WIDTH] at hi ⊢
  omega

/-! ## Messages and queues -/

/-- `dequeue()` or `dequeue(pos)`. -/
def MessageBuffer.pop {Addr α : Type} (b : MessageBuffer Addr α) (receiver : ClockedObject) :
    Option ℕ → Except Abort (MessageBuffer Addr α)
  | none => b.dequeue receiver
  | some pos => b.dequeueAt receiver pos

/-- What a throttle reads of a `NetworkMessage`: the bytes of its size type, whether its
destination is marked as a side packet, and the L1 caches among the destinations. -/
structure NetworkMessage where
  bytes : ℕ
  isSidePacket : Bool
  cores : List ℕ
  deriving DecidableEq, Repr

/-- A queue of the network; nothing is ever stalled there. -/
abbrev NetworkQueue := MessageBuffer Unit NetworkMessage

/-- `m_sID`, the consumer of the output queues if it is a `PerfectSwitch` (`switchID`), the link,
and the state: the round-robin token (true for write-backs), the flag of the shared memory and
what is left to transmit. -/
structure Throttle where
  sID : ℕ
  switchID : Option ℕ
  vnets : ℕ
  linkLatency : ℕ
  linkBandwidth : ℕ
  vToken : Bool := false
  smBlock : Bool := false
  unitsRemaining : ℕ → ℕ := fun _ => 0

namespace Throttle

/-- Flip the token, and the flag with it. -/
def changeVnetToken (h : Throttle) : Throttle :=
  { h with
    vToken := !h.vToken
    smBlock := !h.vToken }

/-- The token that the slot starts with. -/
def setSlotType (h : Throttle) (curCycle : ℕ) : Throttle :=
  let h := if isStartDemandSlot curCycle then { h with vToken := false } else h
  if isStartWBSlot curCycle then { h with vToken := true } else h

end Throttle

/-- The surroundings of a wakeup: the cycle, and the clocks of the switch as the queues see it. -/
structure WakeupTime where
  curCycle : ℕ
  receiver : ClockedObject
  sender : Sender

/-- A throttle in the middle of a wakeup: the queues (a null pointer is `none`), the bandwidth
left in this cycle, and the messages forwarded so far with their virtual networks. -/
structure ThrottlePass where
  throttle : Throttle
  input : ℕ → Option NetworkQueue
  output : ℕ → Option NetworkQueue
  bwRemaining : ℕ
  scheduleWakeup : Bool := false
  forwarded : List (ℕ × NetworkMessage) := []

namespace ThrottlePass

variable (now : WakeupTime)

variable (w : ThrottlePass)

variable (vnet : ℕ)

/-- `in->isReady()`. -/
def inReady : Bool := (w.input vnet).any fun q => q.isReady now.receiver

/-- `out->areNSlotsAvailable(1)`. -/
def outAvailable : Bool :=
  (w.output vnet).any fun q => q.areNSlotsAvailable now.sender.toClockedObject 1

/-- The message at the front or at a position of the input queue. -/
def peek (pos : Option ℕ) : Option NetworkMessage := do
  let q ← w.input vnet
  let x ← q.prioHeap[pos.getD 0]?
  pure x.msg

/-- `serviceRequest(in, out, vnet, pos)`; -1 is `none`. -/
def serviceRequest (pos : Option ℕ) : Except Abort ThrottlePass :=
  match w.input vnet, w.output vnet, w.peek vnet pos with
  | some inQ, some outQ, some msg => do
    let inQ ← inQ.pop now.receiver pos
    let outQ ← outQ.enqueue now.sender msg w.throttle.linkLatency false
    pure { w with
      throttle := { w.throttle with
        unitsRemaining := Function.update w.throttle.unitsRemaining vnet
          (w.throttle.unitsRemaining vnet + msg.bytes * MESSAGE_SIZE_MULTIPLIER) }
      input := Function.update w.input vnet (some inQ)
      output := Function.update w.output vnet (some outQ)
      forwarded := w.forwarded ++ [(vnet, msg)] }
  | _, _, _ => .error .undefined

/-- The units of the link that are used, at most those that are left. -/
def spend : ThrottlePass :=
  { w with
    throttle := { w.throttle with
      unitsRemaining := Function.update w.throttle.unitsRemaining vnet
        (w.throttle.unitsRemaining vnet - w.bwRemaining) }
    bwRemaining := w.bwRemaining - w.throttle.unitsRemaining vnet }

/-- Take the front of the queue if the last message is through. -/
def takeFront : Except Abort ThrottlePass :=
  if w.throttle.unitsRemaining vnet = 0 ∧ w.inReady now vnet then w.serviceRequest now vnet none
  else .ok w

/-- The four lines that the branches share: take the front and use the link. -/
def transmit : Except Abort ThrottlePass := do
  let w ← w.takeFront now vnet
  pure (w.spend vnet)

/-- `if (in->isReady()) schedule_wakeup = true`. -/
def scheduleIfReady : ThrottlePass :=
  { w with scheduleWakeup := w.scheduleWakeup || w.inReady now vnet }

/-- The first block of `operateVnet`: at the start of a slot the token is set for the slot, and
handed over if only the other network has a message. -/
def chooseSlotType : Except Abort ThrottlePass :=
  if isStartOfSlot now.curCycle ∧ vnet = 6 ∧ w.throttle.sID < 4 then
    match w.input 6, w.input 2 with
    | some wbQueue, some demandQueue =>
      let h := w.throttle.setSlotType now.curCycle
      let wb := wbQueue.isReady now.receiver
      let demand := demandQueue.isReady now.receiver
      if h.vToken then
        if !wb && demand then
          .ok { w with throttle := { h.changeVnetToken with smBlock := false } }
        else .ok { w with throttle := { h with smBlock := true } }
      else
        if !demand && wb then
          .ok { w with throttle := { h.changeVnetToken with smBlock := true } }
        else .ok { w with throttle := { h with smBlock := false } }
    | _, _ => .error .undefined
  else .ok w

/-- The start of the core's own slot: the network with the token is served. -/
def serveSlotStart : Except Abort ThrottlePass :=
  if getSlotOwner now.curCycle = some w.throttle.sID ∧ isStartOfSlot now.curCycle then
    if w.throttle.vToken = decide (vnet = 6) then do
      let w ← w.transmit now vnet
      pure (w.scheduleIfReady now vnet)
    else .ok (w.scheduleIfReady now vnet)
  else .ok w

/-- A side packet at the front of network 2 goes at any time. -/
def serveSidePacket : Except Abort ThrottlePass :=
  if vnet = 2 ∧ w.inReady now vnet then
    if (w.peek vnet none).any (·.isSidePacket) then do
      let w ← w.transmit now vnet
      pure (w.scheduleIfReady now vnet)
    else .ok (w.scheduleIfReady now vnet)
  else .ok { w with scheduleWakeup := true }

/-- A core's throttle on its way to the arbiter, for the networks 2 and 6. -/
def serveCore : Except Abort ThrottlePass := do
  let w ← w.serveSlotStart now vnet
  w.serveSidePacket now vnet

/-- The first ready message for the owner of the slot, if the throttle is not blocked. -/
def findForOwner : Option ℕ :=
  match w.input vnet, getSlotOwner now.curCycle with
  | some q, some owner =>
    (List.range q.prioHeap.length).find? fun i =>
      q.isReadyAt now.receiver i && (w.peek vnet (some i)).any (fun m => decide (owner ∈ m.cores)) &&
        !w.throttle.smBlock
  | _, _ => none

/-- The throttle of the shared memory on its way to the arbiter. -/
def serveMemory : Except Abort ThrottlePass :=
  match w.findForOwner now vnet with
  | some pos => do
    let w ← w.serviceRequest now vnet (some pos)
    pure ((w.spend vnet).scheduleIfReady now vnet)
  | none => .ok { w with scheduleWakeup := true }

/-- The body of the loop in `operateVnet`. -/
def serve : Except Abort ThrottlePass :=
  match w.throttle.switchID with
  | some switchID =>
    if switchID = 5 ∧ w.throttle.sID < 4 ∧ (vnet = 6 ∨ vnet = 2) then w.serveCore now vnet
    else if switchID = 5 ∧ w.throttle.sID = 4 then w.serveMemory now vnet
    else do
      let w ← w.transmit now vnet
      pure (w.scheduleIfReady now vnet)
  | none => w.transmit now vnet

/-- There is bandwidth and something to send. -/
def Pending : Prop :=
  0 < w.bwRemaining ∧ (w.inReady now vnet ∨ 0 < w.throttle.unitsRemaining vnet)

instance (w : ThrottlePass) (vnet : ℕ) : Decidable (w.Pending now vnet) :=
  inferInstanceAs (Decidable (_ ∧ _))

/-- The loop of `operateVnet`.  Every branch ends in a `break`, so the body runs at most once. -/
def serveOnce : Except Abort ThrottlePass :=
  if w.Pending now vnet ∧ w.outAvailable now vnet then w.serve now vnet else .ok w

/-- Wait for room in the output queue. -/
def awaitOutput : ThrottlePass :=
  if w.Pending now vnet ∧ ¬ w.outAvailable now vnet then { w with scheduleWakeup := true } else w

def operateVnet : Except Abort ThrottlePass := do
  let w ← w.chooseSlotType now vnet
  if (w.input vnet).isNone ∨ (w.output vnet).isNone then pure w
  else do
    let w ← w.serveOnce now vnet
    pure (w.awaitOutput now vnet)

/-- The loop of `wakeup` over the virtual networks below a bound, the highest first. -/
def operateBelow (w : ThrottlePass) : ℕ → Except Abort ThrottlePass
  | 0 => .ok w
  | vnet + 1 => do
    let w ← w.operateVnet now vnet
    w.operateBelow vnet

end ThrottlePass

/-- `Throttle::wakeup`, on the queues it finds. -/
def Throttle.wakeup (h : Throttle) (now : WakeupTime) (input output : ℕ → Option NetworkQueue) :
    Except Abort ThrottlePass :=
  if 0 < h.linkBandwidth then
    ThrottlePass.operateBelow now ⟨h, input, output, h.linkBandwidth, false, []⟩ h.vnets
  else .error .assertion

/-! ## What a pass forwards -/

/-- The throttle's identity and token stay, and only messages that meet `ok` are forwarded. -/
structure ThrottlePass.Forwards (ok : ℕ × NetworkMessage → Prop) (w w' : ThrottlePass) : Prop where
  sID : w'.throttle.sID = w.throttle.sID
  switchID : w'.throttle.switchID = w.throttle.switchID
  vToken : w'.throttle.vToken = w.throttle.vToken
  forwarded : ∃ new, w'.forwarded = w.forwarded ++ new ∧ ∀ f ∈ new, ok f

namespace ThrottlePass

variable {now : WakeupTime} {ok ok' : ℕ × NetworkMessage → Prop} {w w' w'' : ThrottlePass}
  {vnet : ℕ}

/-- Steps that only touch the bandwidth or the next wakeup. -/
theorem Forwards.none (hs : w'.throttle.sID = w.throttle.sID)
    (hsw : w'.throttle.switchID = w.throttle.switchID)
    (hv : w'.throttle.vToken = w.throttle.vToken) (hf : w'.forwarded = w.forwarded) :
    Forwards ok w w' :=
  ⟨hs, hsw, hv, [], by rw [hf, append_nil], by simp⟩

theorem Forwards.refl (w : ThrottlePass) : Forwards ok w w := .none rfl rfl rfl rfl

theorem Forwards.trans (h : Forwards ok w w') (h' : Forwards ok w' w'') : Forwards ok w w'' := by
  obtain ⟨new, hnew, hok⟩ := h.forwarded
  obtain ⟨new', hnew', hok'⟩ := h'.forwarded
  refine ⟨h'.sID.trans h.sID, h'.switchID.trans h.switchID, h'.vToken.trans h.vToken,
    new ++ new', ?_, ?_⟩
  · rw [hnew', hnew, append_assoc]
  · intro f hf
    rcases mem_append.mp hf with hf | hf
    · exact hok f hf
    · exact hok' f hf

theorem Forwards.mono (h : Forwards ok w w') (hle : ∀ f, ok f → ok' f) : Forwards ok' w w' := by
  obtain ⟨new, hnew, hok⟩ := h.forwarded
  exact ⟨h.sID, h.switchID, h.vToken, new, hnew, fun f hf => hle f (hok f hf)⟩

theorem serviceRequest_forwards {pos : Option ℕ} (h : w.serviceRequest now vnet pos = .ok w') :
    Forwards (fun f => f.1 = vnet ∧ w.peek vnet pos = some f.2) w w' := by
  unfold serviceRequest at h
  split at h
  · rename_i inQ outQ msg hin hout hpeek
    obtain ⟨inQ', -, h⟩ := Except.bind_eq_ok h
    obtain ⟨outQ', -, rfl⟩ := Except.bind_pure_eq_ok h
    refine ⟨rfl, rfl, rfl, [(vnet, msg)], rfl, ?_⟩
    intro f hf
    rw [mem_singleton.mp hf]
    exact ⟨rfl, hpeek⟩
  · cases h

theorem spend_forwards : Forwards ok w (w.spend vnet) := .none rfl rfl rfl rfl

theorem scheduleIfReady_forwards : Forwards ok w (w.scheduleIfReady now vnet) := .none rfl rfl rfl rfl

/-- `transmit` forwards the front of its queue or nothing. -/
theorem transmit_forwards (h : w.transmit now vnet = .ok w') :
    Forwards (fun f => f.1 = vnet ∧ w.peek vnet none = some f.2) w w' := by
  obtain ⟨w₁, hw₁, rfl⟩ := Except.bind_pure_eq_ok h
  unfold takeFront at hw₁
  split at hw₁
  · exact (serviceRequest_forwards hw₁).trans spend_forwards
  · cases hw₁
    exact spend_forwards

theorem serveSlotStart_forwards (h : w.serveSlotStart now vnet = .ok w') :
    Forwards (fun f => f.1 = vnet ∧ getSlotOwner now.curCycle = some w.throttle.sID ∧
      isStartOfSlot now.curCycle = true ∧ w.throttle.vToken = decide (vnet = 6)) w w' := by
  unfold serveSlotStart at h
  split at h
  · rename_i hslot
    split at h
    · rename_i htoken
      obtain ⟨w₁, hw₁, rfl⟩ := Except.bind_pure_eq_ok h
      refine ((transmit_forwards hw₁).mono ?_).trans scheduleIfReady_forwards
      rintro f ⟨hf, -⟩
      exact ⟨hf, hslot.1, hslot.2, htoken⟩
    · cases h
      exact scheduleIfReady_forwards
  · cases h
    exact .refl _

theorem serveSidePacket_forwards (h : w.serveSidePacket now vnet = .ok w') :
    Forwards (fun f => f.1 = vnet ∧ f.2.isSidePacket = true) w w' := by
  unfold serveSidePacket at h
  split at h
  · split at h
    · -- the front that was looked at is the one that is sent
      rename_i hside
      obtain ⟨w₁, hw₁, rfl⟩ := Except.bind_pure_eq_ok h
      refine ((transmit_forwards hw₁).mono ?_).trans scheduleIfReady_forwards
      rintro f ⟨hf, hpeek⟩
      rw [hpeek] at hside
      exact ⟨hf, hside⟩
    · cases h
      exact scheduleIfReady_forwards
  · cases h
    exact .none rfl rfl rfl rfl

/-! ## A core's throttle -/

/-- A request or write-back that is not a side packet. -/
def Ordinary (f : ℕ × NetworkMessage) : Prop := (f.1 = 2 ∨ f.1 = 6) ∧ f.2.isSidePacket = false

/-- What a core's throttle may forward on a network, given its token. -/
def CoreMay (now : WakeupTime) (sID : ℕ) (vToken : Bool) (vnet : ℕ) (f : ℕ × NetworkMessage) :
    Prop :=
  f.1 = vnet ∧ (Ordinary f → getSlotOwner now.curCycle = some sID ∧
    isStartOfSlot now.curCycle = true ∧ vToken = decide (vnet = 6))

theorem serve_core (hs : w.throttle.sID < 4) (hsw : w.throttle.switchID = some 5)
    (h : w.serve now vnet = .ok w') :
    Forwards (CoreMay now w.throttle.sID w.throttle.vToken vnet) w w' := by
  unfold serve at h
  rw [hsw] at h
  dsimp only at h
  split at h
  · obtain ⟨w₁, hw₁, h⟩ := Except.bind_eq_ok h
    refine ((serveSlotStart_forwards hw₁).mono ?_).trans ((serveSidePacket_forwards h).mono ?_)
    · rintro f ⟨hf, hslot⟩
      exact ⟨hf, fun _ => hslot⟩
    · rintro f ⟨hf, hside⟩
      refine ⟨hf, fun hord => ?_⟩
      rw [hord.2] at hside
      cases hside
  · rename_i hother
    rw [if_neg (by omega)] at h
    obtain ⟨w₁, hw₁, rfl⟩ := Except.bind_pure_eq_ok h
    refine ((transmit_forwards hw₁).mono ?_).trans scheduleIfReady_forwards
    -- no ordinary message is on another network
    rintro f ⟨hf, -⟩
    refine ⟨hf, fun hord => absurd ⟨rfl, hs, ?_⟩ hother⟩
    rw [← hf]
    exact hord.1.symm

/-- The token is chosen when network 6 is looked at, and only then. -/
theorem chooseSlotType_spec (h : w.chooseSlotType now vnet = .ok w') :
    w'.throttle.sID = w.throttle.sID ∧ w'.throttle.switchID = w.throttle.switchID ∧
      w'.forwarded = w.forwarded ∧ (vnet ≠ 6 → w'.throttle.vToken = w.throttle.vToken) ∧
      (isStartOfSlot now.curCycle = false → w'.throttle.vToken = w.throttle.vToken) := by
  have hset : ∀ t, (w.throttle.setSlotType t).sID = w.throttle.sID ∧
      (w.throttle.setSlotType t).switchID = w.throttle.switchID := by
    intro t
    unfold Throttle.setSlotType
    split <;> split <;> exact ⟨rfl, rfl⟩
  unfold chooseSlotType at h
  split at h
  · rename_i hslot
    have hvnet : vnet ≠ 6 → w'.throttle.vToken = w.throttle.vToken := absurd hslot.2.1
    have hstart : isStartOfSlot now.curCycle = false → w'.throttle.vToken = w.throttle.vToken :=
      fun hnot => absurd (hnot.symm.trans hslot.1) Bool.false_ne_true
    split at h
    · dsimp only at h
      split at h <;> split at h <;> obtain rfl := Except.ok.inj h <;>
        exact ⟨(hset _).1, (hset _).2, rfl, hvnet, hstart⟩
    · cases h
  · cases h
    exact ⟨rfl, rfl, rfl, fun _ => rfl, fun _ => rfl⟩

/-- After the choice of the token `operateVnet` serves the queue or leaves it. -/
theorem operateVnet_eq_ok (h : w.operateVnet now vnet = .ok w') :
    ∃ w₁, w.chooseSlotType now vnet = .ok w₁ ∧
      (w' = w₁ ∨ ∃ w₂, w₁.serveOnce now vnet = .ok w₂ ∧ w' = w₂.awaitOutput now vnet) := by
  obtain ⟨w₁, hw₁, h⟩ := Except.bind_eq_ok h
  refine ⟨w₁, hw₁, ?_⟩
  split at h
  · exact .inl (Except.ok.inj h).symm
  · obtain ⟨w₂, hw₂, h⟩ := Except.bind_eq_ok h
    exact .inr ⟨w₂, hw₂, (Except.ok.inj h).symm⟩

theorem serveOnce_eq_ok (h : w.serveOnce now vnet = .ok w') :
    w' = w ∨ w.serve now vnet = .ok w' := by
  unfold serveOnce at h
  split at h
  · exact .inr h
  · exact .inl (Except.ok.inj h).symm

theorem awaitOutput_forwards : Forwards ok w (w.awaitOutput now vnet) := by
  unfold awaitOutput
  split
  · exact .none rfl rfl rfl rfl
  · exact .refl _

theorem operateVnet_core (hs : w.throttle.sID < 4) (hsw : w.throttle.switchID = some 5)
    (h : w.operateVnet now vnet = .ok w') :
    w'.throttle.sID = w.throttle.sID ∧ w'.throttle.switchID = some 5 ∧
      (vnet ≠ 6 → w'.throttle.vToken = w.throttle.vToken) ∧
      ∃ new, w'.forwarded = w.forwarded ++ new ∧
        ∀ f ∈ new, CoreMay now w.throttle.sID w'.throttle.vToken vnet f := by
  obtain ⟨w₁, hw₁, h⟩ := operateVnet_eq_ok h
  obtain ⟨hs₁, hsw₁, hf₁, hv₁, -⟩ := chooseSlotType_spec hw₁
  have hforwards : Forwards (CoreMay now w₁.throttle.sID w₁.throttle.vToken vnet) w₁ w' := by
    rcases h with rfl | ⟨w₂, hw₂, rfl⟩
    · exact .refl _
    · refine Forwards.trans ?_ awaitOutput_forwards
      rcases serveOnce_eq_ok hw₂ with rfl | hw₂
      · exact .refl _
      · exact serve_core (by omega) (hsw₁.trans hsw) hw₂
  obtain ⟨new, hnew, hok⟩ := hforwards.forwarded
  refine ⟨hforwards.sID.trans hs₁, (hforwards.switchID.trans hsw₁).trans hsw, ?_, new, ?_, ?_⟩
  · intro hne
    rw [hforwards.vToken, hv₁ hne]
  · rw [hnew, hf₁]
  · rwa [hforwards.vToken, ← hs₁]

/-- **One wakeup of a core's throttle**: ordinary messages go at the start of the core's own slot
only, and all of them on the network that the token is on at the end. -/
theorem operateBelow_core (n : ℕ) : ∀ {w w' : ThrottlePass}, w.throttle.sID < 4 →
    w.throttle.switchID = some 5 → w.operateBelow now n = .ok w' →
    w'.throttle.sID = w.throttle.sID ∧ w'.throttle.switchID = some 5 ∧
      (n ≤ 6 → w'.throttle.vToken = w.throttle.vToken) ∧
      ∃ new, w'.forwarded = w.forwarded ++ new ∧ ∀ f ∈ new,
        CoreMay now w.throttle.sID w'.throttle.vToken f.1 f := by
  induction n with
  | zero =>
    intro w w' hs hsw h
    cases h
    exact ⟨rfl, hsw, fun _ => rfl, [], by simp, by simp⟩
  | succ vnet ih =>
    intro w w' hs hsw h
    obtain ⟨w₁, hw₁, h⟩ := Except.bind_eq_ok h
    obtain ⟨hs₁, hsw₁, hv₁, new₁, hnew₁, hok₁⟩ := operateVnet_core hs hsw hw₁
    obtain ⟨hs', hsw', hv', new, hnew, hok⟩ := ih (by omega) hsw₁ h
    refine ⟨hs'.trans hs₁, hsw', ?_, new₁ ++ new, ?_, ?_⟩
    · intro hle
      rw [hv' (by omega), hv₁ (by omega)]
    · rw [hnew, hnew₁, append_assoc]
    · intro f hf
      rcases mem_append.mp hf with hf | hf
      · obtain ⟨hvnet, hslot⟩ := hok₁ f hf
        refine ⟨rfl, fun hord => ?_⟩
        obtain ⟨howner, hstart, htoken⟩ := hslot hord
        -- an ordinary message is on network 2 or 6, where the token no longer changes
        have hle : vnet ≤ 6 := by
          rcases hord.1 with h2 | h6
          · omega
          · omega
        rw [hv' hle, hvnet]
        exact ⟨howner, hstart, htoken⟩
      · rw [← hs₁]
        exact hok f hf

/-! ## Every throttle -/

theorem serve_forwards (h : w.serve now vnet = .ok w') : Forwards (fun f => f.1 = vnet) w w' := by
  have htransmit : ∀ {w₁}, w.transmit now vnet = .ok w₁ → Forwards (fun f => f.1 = vnet) w w₁ :=
    fun h => (transmit_forwards h).mono fun f hf => hf.1
  unfold serve at h
  split at h
  · split at h
    · obtain ⟨w₁, hw₁, h⟩ := Except.bind_eq_ok h
      exact ((serveSlotStart_forwards hw₁).mono fun f hf => hf.1).trans
        ((serveSidePacket_forwards h).mono fun f hf => hf.1)
    · split at h
      · unfold serveMemory at h
        split at h
        · obtain ⟨w₁, hw₁, rfl⟩ := Except.bind_pure_eq_ok h
          exact (((serviceRequest_forwards hw₁).mono fun f hf => hf.1).trans spend_forwards).trans
            scheduleIfReady_forwards
        · cases h
          exact .none rfl rfl rfl rfl
      · obtain ⟨w₁, hw₁, rfl⟩ := Except.bind_pure_eq_ok h
        exact (htransmit hw₁).trans scheduleIfReady_forwards
  · exact htransmit h

/-- A wakeup does not change which throttle it is, and the token only where a slot starts. -/
theorem operateBelow_ids (n : ℕ) : ∀ {w w' : ThrottlePass}, w.operateBelow now n = .ok w' →
    w'.throttle.sID = w.throttle.sID ∧ w'.throttle.switchID = w.throttle.switchID ∧
      (isStartOfSlot now.curCycle = false → w'.throttle.vToken = w.throttle.vToken) := by
  induction n with
  | zero =>
    intro w w' h
    cases h
    exact ⟨rfl, rfl, fun _ => rfl⟩
  | succ vnet ih =>
    intro w w' h
    obtain ⟨w₁, hw₁, h⟩ := Except.bind_eq_ok h
    obtain ⟨w₀, hw₀, hserve⟩ := operateVnet_eq_ok hw₁
    obtain ⟨hs₀, hsw₀, -, -, hv₀⟩ := chooseSlotType_spec hw₀
    have hforwards : Forwards (fun f => f.1 = vnet) w₀ w₁ := by
      rcases hserve with rfl | ⟨w₂, hw₂, rfl⟩
      · exact .refl _
      · refine Forwards.trans ?_ awaitOutput_forwards
        rcases serveOnce_eq_ok hw₂ with rfl | hw₂
        · exact .refl _
        · exact serve_forwards hw₂
    obtain ⟨hs', hsw', hv'⟩ := ih h
    exact ⟨hs'.trans (hforwards.sID.trans hs₀), hsw'.trans (hforwards.switchID.trans hsw₀),
      fun hstart => (hv' hstart).trans (hforwards.vToken.trans (hv₀ hstart))⟩

/-! ## The throttle of the shared memory -/

/-- The queue has no ready message for the owner of the slot. -/
def NothingForOwner (now : WakeupTime) (q : NetworkQueue) : Prop :=
  ∀ x ∈ q.prioHeap, x.time ≤ now.receiver.clockEdge →
    ∀ owner ∈ getSlotOwner now.curCycle, owner ∉ x.msg.cores

instance (now : WakeupTime) (q : NetworkQueue) : Decidable (NothingForOwner now q) :=
  inferInstanceAs (Decidable (∀ x ∈ q.prioHeap, _))

theorem findForOwner_eq_none (h : ∀ q ∈ w.input vnet, NothingForOwner now q) :
    w.findForOwner now vnet = none := by
  unfold findForOwner
  split
  · rename_i q owner hq howner
    rw [find?_eq_none]
    intro i hi hready
    simp only [Bool.and_eq_true] at hready
    obtain ⟨⟨hready, hpeek⟩, -⟩ := hready
    have hlt : i < q.prioHeap.length := mem_range.mp hi
    have hget : q.prioHeap[i]? = some q.prioHeap[i] := getElem?_eq_getElem hlt
    simp only [MessageBuffer.isReadyAt, hget, decide_eq_true_eq] at hready
    refine h q hq _ (getElem_mem hlt) hready owner howner ?_
    simpa [peek, hq, hget] using hpeek
  · rfl

/-- What stays of a pass of the memory's throttle that finds nothing for the owner. -/
structure Idle (w w' : ThrottlePass) : Prop where
  sID : w'.throttle.sID = w.throttle.sID
  switchID : w'.throttle.switchID = w.throttle.switchID
  input : w'.input = w.input
  forwarded : w'.forwarded = w.forwarded

theorem operateVnet_memory (hs : w.throttle.sID = 4) (hsw : w.throttle.switchID = some 5)
    (hnone : ∀ q ∈ w.input vnet, NothingForOwner now q) (h : w.operateVnet now vnet = .ok w') :
    Idle w w' := by
  obtain ⟨w₁, hw₁, h⟩ := operateVnet_eq_ok h
  -- the token is the cores' business
  unfold chooseSlotType at hw₁
  rw [if_neg (by omega)] at hw₁
  cases hw₁
  rcases h with rfl | ⟨w₂, hw₂, rfl⟩
  · exact ⟨rfl, rfl, rfl, rfl⟩
  · have hidle : Idle w w₂ := by
      rcases serveOnce_eq_ok hw₂ with rfl | hw₂
      · exact ⟨rfl, rfl, rfl, rfl⟩
      · unfold serve at hw₂
        rw [hsw] at hw₂
        dsimp only at hw₂
        rw [if_neg (by omega), if_pos ⟨rfl, hs⟩] at hw₂
        unfold serveMemory at hw₂
        rw [findForOwner_eq_none hnone] at hw₂
        cases hw₂
        exact ⟨rfl, rfl, rfl, rfl⟩
    unfold awaitOutput
    split
    · exact ⟨hidle.sID, hidle.switchID, hidle.input, hidle.forwarded⟩
    · exact hidle

/-- With nothing ready for the owner the memory's throttle forwards nothing. -/
theorem operateBelow_memory (n : ℕ) : ∀ {w w' : ThrottlePass}, w.throttle.sID = 4 →
    w.throttle.switchID = some 5 → (∀ vnet < n, ∀ q ∈ w.input vnet, NothingForOwner now q) →
    w.operateBelow now n = .ok w' → w'.forwarded = w.forwarded := by
  induction n with
  | zero =>
    intro w w' hs hsw hnone h
    cases h
    rfl
  | succ vnet ih =>
    intro w w' hs hsw hnone h
    obtain ⟨w₁, hw₁, h⟩ := Except.bind_eq_ok h
    have hidle := operateVnet_memory hs hsw (hnone vnet (Nat.lt_succ_self _)) hw₁
    have hrest : ∀ v < vnet, ∀ q ∈ w₁.input v, NothingForOwner now q := by
      intro v hv q hq
      rw [hidle.input] at hq
      exact hnone v (by omega) q hq
    rw [ih (hidle.sID.trans hs) (hidle.switchID.trans hsw) hrest h, hidle.forwarded]

end ThrottlePass
