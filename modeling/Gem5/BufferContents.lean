/-
# What a message buffer holds

Two properties of whole runs of a `MessageBuffer`.

Messages move between `m_prio_heap` and `m_stall_msg_map` through copies, swaps
and overwritten nodes, but none is lost or doubled: what the buffer holds is
what went in less what came out (`message_buffer_conserves`).

A buffer of finite size is checked by its sender with `areNSlotsAvailable`.
That check counts the heap, or what the heap was at the first pop of the cycle,
so stalled messages that are put back are not in the count, and the heap can
outgrow the size.  It cannot if they are put back only where there is room for
them (`message_buffer_within_size`).

* `MessageBuffer.contents`  — the messages in the heap and in the stall map.
* `AuditedBuffer`           — a buffer with a record of what went in and out.
* `FiniteBuffer`            — a buffer between two ends on one clock.
-/
import Gem5.MessageBuffer
import Mathlib

open List

variable {Addr α : Type}

/-! ## The contents -/

namespace MessageBuffer

variable (b : MessageBuffer Addr α)

/-- The messages in `m_prio_heap`. -/
def heapMsgs : Multiset α :=
  (b.prioHeap.map MessageBufferNode.msg : Multiset α)

/-- The messages in `m_stall_msg_map`. -/
def stalledMsgs : Multiset α :=
  (b.stallMsgMap.flatMap Prod.snd : Multiset α)

def contents : Multiset α := b.heapMsgs + b.stalledMsgs

/-- The messages that a call is about to dequeue: `front()`, or the one at the position. -/
def removedBy : BufferOp Addr α → Multiset α
  | .dequeue _ => (b.prioHeap.head?.toList.map MessageBufferNode.msg : Multiset α)
  | .dequeueAt _ pos => (b.prioHeap[pos]?.toList.map MessageBufferNode.msg : Multiset α)
  | _ => 0

end MessageBuffer

/-- The message that a call puts into the buffer. -/
def BufferOp.enqueued : BufferOp Addr α → Multiset α
  | .enqueue _ message _ _ => {message}
  | _ => 0

/-! ### The stall map -/

theorem pushStalled_perm [LinearOrder Addr] (a : Addr) (m : α) (l : List (Addr × List α)) :
    ((pushStalled a m l).flatMap Prod.snd).Perm (m :: l.flatMap Prod.snd) := by
  induction l with
  | nil => simp [pushStalled]
  | cons e rest ih =>
    obtain ⟨k, ms⟩ := e
    unfold pushStalled
    split
    · simp
    · split
      · -- the message goes behind those of the same address
        simp only [flatMap_cons, append_assoc, singleton_append]
        exact perm_middle
      · exact (ih.append_left ms).trans perm_middle

/-- The messages of an address and those of the others are all of them. -/
theorem eraseAddr_perm [LinearOrder Addr] {a : Addr} {lt : List α} {l : List (Addr × List α)}
    (hs : StallSorted l) (h : l.lookup a = some lt) :
    (l.flatMap Prod.snd).Perm (lt ++ (eraseAddr a l).flatMap Prod.snd) := by
  induction l with
  | nil => cases h
  | cons e rest ih =>
    obtain ⟨k, ms⟩ := e
    obtain ⟨hk, hrest⟩ := pairwise_cons.mp hs
    rw [lookup_cons_addr] at h
    unfold eraseAddr at ih ⊢
    rw [filter_cons]
    by_cases ha : a = k
    · -- the addresses behind are all greater
      subst ha
      rw [if_pos rfl] at h
      cases h
      have hall : rest.filter (fun e => decide (e.1 ≠ a)) = rest := by
        rw [filter_eq_self]
        intro e he
        exact decide_eq_true (ne_of_gt (hk e he))
      rw [hall]
      simp
    · rw [if_neg ha] at h
      rw [if_pos (decide_eq_true (Ne.symm ha))]
      simp only [flatMap_cons]
      refine ((ih hrest h).append_left ms).trans ?_
      rw [← append_assoc, ← append_assoc]
      exact perm_append_comm.append_right _

theorem StallSorted.eraseAddr [LinearOrder Addr] {l : List (Addr × List α)} (h : StallSorted l)
    (a : Addr) : StallSorted (eraseAddr a l) :=
  List.Pairwise.sublist filter_sublist h

namespace MessageBuffer

/-! ### The heap -/

theorem insertNode_perm (heap : List (MessageBufferNode α)) (x : MessageBufferNode α)
    (isRMWWrite : Bool) : (insertNode heap x isRMWWrite).Perm (x :: heap) := by
  unfold insertNode
  split
  · -- the heap is restored from its last node, whichever that is
    rcases eq_nil_or_concat' (x :: heap) with hnil | ⟨l, v, hl⟩
    · cases hnil
    · rw [hl]
      exact pushHeap_perm _ l v
  · exact (pushHeap_perm _ heap x).trans (perm_append_singleton x heap)

variable {x : MessageBufferNode α} {b b' : MessageBuffer Addr α} {receiver : ClockedObject}

theorem msgs_of_cons {heap heap' : List (MessageBufferNode α)} (h : heap.Perm (x :: heap')) :
    (heap.map MessageBufferNode.msg : Multiset α) =
      {x.msg} + (heap'.map MessageBufferNode.msg : Multiset α) := by
  rw [Multiset.coe_eq_coe.mpr (h.map _), map_cons, ← Multiset.cons_coe, Multiset.singleton_add]

theorem heapMsgs_cons {rest : List (MessageBufferNode α)} (h : b.prioHeap = x :: rest) :
    b.heapMsgs = {x.msg} + (rest.map MessageBufferNode.msg : Multiset α) :=
  msgs_of_cons (List.Perm.of_eq h)

/-- What is left when the front is popped. -/
theorem msgs_popped {rest : List (MessageBufferNode α)} (h : b.prioHeap = x :: rest) :
    ((popHeap MessageBufferNode.key b.prioHeap).dropLast.map MessageBufferNode.msg : Multiset α) =
      (rest.map MessageBufferNode.msg : Multiset α) := by
  obtain ⟨m, hm, hperm⟩ := popHeap_perm MessageBufferNode.key x rest
  rw [h, hm, dropLast_concat]
  exact Multiset.coe_eq_coe.mpr (hperm.map _)

theorem stalledMsgs_congr (h : b'.stallMsgMap = b.stallMsgMap) :
    b'.stalledMsgs = b.stalledMsgs := by
  unfold stalledMsgs
  rw [h]

theorem enqueue_heapMsgs {sender : Sender} {m : α} {delta : ℕ}
    {isRMWWrite : Bool} (h : b.enqueue sender m delta isRMWWrite = .ok b') :
    b'.heapMsgs = {m} + b.heapMsgs := by
  unfold enqueue at h
  split at h
  · cases h
  · cases h
    exact msgs_of_cons (insertNode_perm _ _ _)

theorem dequeue_heapMsgs (h : b.dequeue receiver = .ok b') :
    ∃ x rest, b.prioHeap = x :: rest ∧ b.heapMsgs = {x.msg} + b'.heapMsgs := by
  obtain ⟨x, rest, hheap, rfl⟩ := dequeue_eq_ok h
  refine ⟨x, rest, hheap, ?_⟩
  rw [heapMsgs_cons hheap, ← msgs_popped hheap]
  rfl

theorem dequeueAt_heapMsgs {pos : ℕ}
    (h : b.dequeueAt receiver pos = .ok b') :
    ∃ x, b.prioHeap[pos]? = some x ∧ b.heapMsgs = {x.msg} + b'.heapMsgs ∧
      b'.stallMsgMap = b.stallMsgMap := by
  unfold dequeueAt at h
  split at h
  · rename_i hpos
    cases h
    refine ⟨b.prioHeap[pos], getElem?_eq_getElem hpos, ?_, by simp⟩
    exact msgs_of_cons (getElem_cons_eraseIdx_perm hpos).symm
  · cases h

theorem stallMessage_contents [LinearOrder Addr] {addr : Addr}
    (h : b.stallMessage receiver addr = .ok b') :
    b'.contents = b.contents := by
  obtain ⟨x, rest, d, hheap, hd, rfl⟩ := stallMessage_eq_ok h
  obtain ⟨x', rest', hheap', hmsgs⟩ := dequeue_heapMsgs hd
  obtain ⟨rfl, rfl⟩ := cons.inj (hheap.symm.trans hheap')
  have hstalled : ((pushStalled addr x.msg d.stallMsgMap).flatMap Prod.snd : Multiset α) =
      {x.msg} + b.stalledMsgs := by
    rw [Multiset.coe_eq_coe.mpr (pushStalled_perm _ _ _), dequeue_stallMsgMap hd]
    rfl
  show d.heapMsgs + ((pushStalled addr x.msg d.stallMsgMap).flatMap Prod.snd : Multiset α) = _
  rw [hstalled, contents, hmsgs]
  ac_rfl

/-- The popped front and the node that is written over it hold the same message. -/
theorem recycle_heapMsgs (h : b.recycle receiver = .ok b') :
    b'.heapMsgs = b.heapMsgs ∧ b'.stallMsgMap = b.stallMsgMap := by
  unfold recycle at h
  split at h
  · cases h
  · rename_i x rest hheap
    cases h
    refine ⟨?_, rfl⟩
    have hpushed := msgs_of_cons (insertNode_perm
      (popHeap MessageBufferNode.key b.prioHeap).dropLast
      { x with time := receiver.edgeIn b.recycleLatency } false)
    rw [heapMsgs_cons hheap, ← msgs_popped hheap]
    exact hpushed

theorem delayHead_heapMsgs {sender : Sender}
    (h : b.delayHead sender = .ok b') :
    b'.heapMsgs = b.heapMsgs ∧ b'.stallMsgMap = b.stallMsgMap := by
  unfold delayHead at h
  split at h
  · cases h
  · rename_i x rest hheap
    have hmap := enqueue_stallMsgMap h
    refine ⟨?_, hmap⟩
    rw [enqueue_heapMsgs h, heapMsgs_cons hheap, ← msgs_popped hheap]
    rfl

theorem reanalyzeMessages_contents [LinearOrder Addr] {addr : Addr} (hs : StallSorted b.stallMsgMap)
    (h : b.reanalyzeMessages receiver addr = .ok b') : b'.contents = b.contents := by
  unfold reanalyzeMessages at h
  split at h
  · cases h
  · rename_i lt hlt
    cases h
    have hheap := Multiset.coe_eq_coe.mpr (reanalyzeList_msgs (receiver.edgeIn 1) lt b)
    have hstalled := Multiset.coe_eq_coe.mpr (eraseAddr_perm hs hlt)
    rw [← Multiset.coe_add] at hheap hstalled
    unfold contents heapMsgs stalledMsgs
    rw [hheap, hstalled]
    ac_rfl

theorem reanalyzeAllMessages_contents (b : MessageBuffer Addr α) (receiver : ClockedObject) :
    (b.reanalyzeAllMessages receiver).contents = b.contents := by
  have hheap := Multiset.coe_eq_coe.mpr (reanalyzeAllMessages_msgs b receiver)
  unfold contents heapMsgs stalledMsgs
  rw [hheap]
  exact add_zero _

/-! ### One call -/

/-- **One call** moves messages and loses none. -/
theorem contents_step [LinearOrder Addr] {op : BufferOp Addr α}
    (hs : StallSorted b.stallMsgMap) (h : b.step op = .ok b') :
    b'.contents + b.removedBy op = b.contents + op.enqueued := by
  cases op with
  | enqueue sender message delta isRMWWrite =>
    have hmap : b'.stallMsgMap = b.stallMsgMap := enqueue_stallMsgMap h
    show b'.contents + 0 = b.contents + {message}
    rw [contents, contents, enqueue_heapMsgs h, stalledMsgs_congr hmap]
    abel
  | dequeue receiver =>
    obtain ⟨x, rest, hheap, hmsgs⟩ := dequeue_heapMsgs h
    have hmap : b'.stallMsgMap = b.stallMsgMap := dequeue_stallMsgMap h
    have hremoved : b.removedBy (.dequeue receiver) = {x.msg} := by
      simp [removedBy, hheap]
    show _ = b.contents + 0
    rw [hremoved, contents, contents, hmsgs, stalledMsgs_congr hmap]
    abel
  | dequeueAt receiver pos =>
    obtain ⟨x, hx, hmsgs, hmap⟩ := dequeueAt_heapMsgs h
    have hremoved : b.removedBy (.dequeueAt receiver pos) = {x.msg} := by
      simp [removedBy, hx]
    show _ = b.contents + 0
    rw [hremoved, contents, contents, hmsgs, stalledMsgs_congr hmap]
    abel
  | recycle receiver =>
    obtain ⟨hmsgs, hmap⟩ := recycle_heapMsgs h
    show b'.contents + 0 = b.contents + 0
    rw [contents, contents, hmsgs, stalledMsgs_congr hmap]
  | delayHead sender =>
    obtain ⟨hmsgs, hmap⟩ := delayHead_heapMsgs h
    show b'.contents + 0 = b.contents + 0
    rw [contents, contents, hmsgs, stalledMsgs_congr hmap]
  | stallMessage receiver addr =>
    show b'.contents + 0 = b.contents + 0
    rw [stallMessage_contents h]
  | reanalyzeMessages receiver addr =>
    show b'.contents + 0 = b.contents + 0
    rw [reanalyzeMessages_contents hs h]
  | reanalyzeAllMessages receiver =>
    cases h
    show _ + 0 = b.contents + 0
    rw [reanalyzeAllMessages_contents]

/-- The keys of the map stay in order. -/
theorem stallSorted_step [LinearOrder Addr] {op : BufferOp Addr α}
    (hs : StallSorted b.stallMsgMap) (h : b.step op = .ok b') : StallSorted b'.stallMsgMap := by
  cases op with
  | enqueue sender message delta isRMWWrite => rwa [enqueue_stallMsgMap h]
  | dequeue receiver => rwa [dequeue_stallMsgMap h]
  | dequeueAt receiver pos =>
    obtain ⟨_, -, -, hmap⟩ := dequeueAt_heapMsgs h
    rwa [hmap]
  | recycle receiver => rwa [(recycle_heapMsgs h).2]
  | delayHead sender => rwa [(delayHead_heapMsgs h).2]
  | stallMessage receiver addr =>
    obtain ⟨m, hmap⟩ := stallMessage_stallMsgMap h
    rw [hmap]
    exact stallSorted_pushStalled hs
  | reanalyzeMessages receiver addr =>
    rw [reanalyzeMessages_stallMsgMap h]
    exact hs.eraseAddr addr
  | reanalyzeAllMessages receiver =>
    cases h
    exact List.Pairwise.nil

end MessageBuffer

/-! ### Whole runs -/

/-- A buffer with all the messages that were enqueued and all that were dequeued. -/
structure AuditedBuffer (Addr α : Type) where
  buffer : MessageBuffer Addr α
  enqueued : Multiset α := 0
  removed : Multiset α := 0

namespace AuditedBuffer

def step [LinearOrder Addr] (a : AuditedBuffer Addr α) (op : BufferOp Addr α) :
    Except Abort (AuditedBuffer Addr α) := do
  let b ← a.buffer.step op
  pure
    { buffer := b
      enqueued := a.enqueued + op.enqueued
      removed := a.removed + a.buffer.removedBy op }

/-- The invariant of a run. -/
structure Balanced [LinearOrder Addr] (a : AuditedBuffer Addr α) : Prop where
  sorted : StallSorted a.buffer.stallMsgMap
  balance : a.buffer.contents + a.removed = a.enqueued

theorem Balanced.step [LinearOrder Addr] {a a' : AuditedBuffer Addr α} {op : BufferOp Addr α}
    (h : a.Balanced) (ha : a.step op = .ok a') : a'.Balanced := by
  obtain ⟨b, hb, rfl⟩ := Except.bind_pure_eq_ok ha
  refine ⟨MessageBuffer.stallSorted_step h.sorted hb, ?_⟩
  calc b.contents + (a.removed + a.buffer.removedBy op)
      = b.contents + a.buffer.removedBy op + a.removed := by abel
    _ = a.buffer.contents + op.enqueued + a.removed := by
      rw [MessageBuffer.contents_step h.sorted hb]
    _ = a.buffer.contents + a.removed + op.enqueued := by abel
    _ = a.enqueued + op.enqueued := by rw [h.balance]

end AuditedBuffer

/-- **No message is lost or doubled.**  In every state of every run the contents of the buffer and
what was dequeued are together what was enqueued. -/
theorem message_buffer_conserves [LinearOrder Addr] {maxSize recycleLatency : ℕ}
    {strictFifo randomization : Bool} {ops : List (BufferOp Addr α)} {a : AuditedBuffer Addr α}
    (h : Runs (Within AuditedBuffer.step Anytime)
      { buffer := .create maxSize recycleLatency strictFifo randomization } ops a) :
    a.buffer.contents + a.removed = a.enqueued := by
  have hbalanced : a.Balanced := by
    refine h.invariant (fun _ _ _ hs ht => hs.step ht.2) ⟨List.Pairwise.nil, ?_⟩
    exact add_zero _
  exact hbalanced.balance

theorem message_buffer_conserves_moved_messages :
    ∃ a : AuditedBuffer ℕ ℕ, Runs (Within AuditedBuffer.step Anytime)
      { buffer := .create 0 1 false false }
      [.enqueue (.tick 0) 7 20 false, .enqueue (.tick 0) 8 10 false, .enqueue (.tick 0) 9 30 true,
        .recycle (.tick 30), .stallMessage (.tick 30) 64, .dequeueAt (.tick 31) 1,
        .reanalyzeAllMessages (.tick 32), .dequeue (.tick 33)] a ∧
      a.removed.card = 2 ∧ a.buffer.contents + a.removed = a.enqueued := by
  refine exists_runs_and_of_execWithin (by decide +kernel) ?_
  intro a ha _
  exact message_buffer_conserves ha

/-! ## Buffers of finite size -/

/-- A buffer with its ends on one clock.  A sender that has asked in this cycle and was told of a
free slot is `granted` one message. -/
structure FiniteBuffer (Addr α : Type) where
  buffer : MessageBuffer Addr α
  clock : ClockedObject
  granted : Bool := false

inductive FiniteOp (Addr α : Type)
  | advance (clock : ClockedObject)
  | areNSlotsAvailable
  | enqueue (message : α) (delta : ℕ) (isRMWWrite : Bool) (randomTime : ℕ) (warmupEnabled : Bool)
  | dequeue
  | dequeueAt (pos : ℕ)
  | stallMessage (addr : Addr)
  | reanalyzeMessages (addr : Addr)
  | reanalyzeAllMessages

namespace FiniteBuffer

variable (f : FiniteBuffer Addr α)

/-- The operation of the buffer itself, with the clock of the cycle. -/
def call : FiniteOp Addr α → Option (BufferOp Addr α)
  | .advance _ | .areNSlotsAvailable => none
  | .enqueue message delta isRMWWrite randomTime warmupEnabled =>
    some (.enqueue { f.clock with randomTime, warmupEnabled } message delta isRMWWrite)
  | .dequeue => some (.dequeue f.clock)
  | .dequeueAt pos => some (.dequeueAt f.clock pos)
  | .stallMessage addr => some (.stallMessage f.clock addr)
  | .reanalyzeMessages addr => some (.reanalyzeMessages f.clock addr)
  | .reanalyzeAllMessages => some (.reanalyzeAllMessages f.clock)

/-- An enqueue uses the grant up, and a grant ends with its cycle. -/
def grant : FiniteOp Addr α → Bool
  | .advance _ | .enqueue _ _ _ _ _ => false
  | .areNSlotsAvailable => f.granted || f.buffer.areNSlotsAvailable f.clock 1
  | _ => f.granted

def bufferAfter [LinearOrder Addr] (f : FiniteBuffer Addr α) (op : FiniteOp Addr α) :
    Except Abort (MessageBuffer Addr α) :=
  match f.call op with
  | some call => f.buffer.step call
  | none => .ok f.buffer

def step [LinearOrder Addr] (f : FiniteBuffer Addr α) (op : FiniteOp Addr α) :
    Except Abort (FiniteBuffer Addr α) := do
  let b ← f.bufferAfter op
  pure
    { buffer := b
      clock := match op with
        | .advance clock => clock
        | _ => f.clock
      granted := f.grant op }

/-- The calls that the two ends may make: time goes on, and only granted messages are enqueued. -/
def Allowed : FiniteOp Addr α → Prop
  | .advance clock => f.clock.curCycle < clock.curCycle ∧ f.clock.clockEdge < clock.clockEdge
  | .enqueue _ _ _ _ _ => f.granted = true
  | _ => True

/-- How many messages the call puts back into the heap. -/
def putBack [DecidableEq Addr] (f : FiniteBuffer Addr α) : FiniteOp Addr α → ℕ
  | .reanalyzeMessages addr => (stalledFor f.buffer.stallMsgMap addr).length
  | .reanalyzeAllMessages => (f.buffer.stallMsgMap.flatMap Prod.snd).length
  | _ => 0

/-- **Room for what is put back**: besides a message that was granted, and, when something was
popped in this cycle, within the size that the sender is told. -/
structure Roomy [DecidableEq Addr] (f : FiniteBuffer Addr α) (op : FiniteOp Addr α) : Prop where
  allowed : f.Allowed op
  fits : f.putBack op ≠ 0 →
    f.buffer.prioHeap.length + f.putBack op + f.granted.toNat ≤ f.buffer.maxSize
  visible : f.putBack op ≠ 0 → f.clock.clockEdge ≤ f.buffer.timeLastTimePop →
    f.buffer.prioHeap.length + f.putBack op ≤ f.buffer.currentSize f.clock

instance (f : FiniteBuffer Addr α) : (op : FiniteOp Addr α) → Decidable (f.Allowed op)
  | .advance _ => inferInstanceAs (Decidable (_ ∧ _))
  | .enqueue _ _ _ _ _ => inferInstanceAs (Decidable (_ = _))
  | .areNSlotsAvailable | .dequeue | .dequeueAt _ | .stallMessage _ | .reanalyzeMessages _
  | .reanalyzeAllMessages => inferInstanceAs (Decidable True)

instance [DecidableEq Addr] (f : FiniteBuffer Addr α) (op : FiniteOp Addr α) :
    Decidable (f.Roomy op) :=
  decidable_of_iff _ ⟨fun h : _ ∧ _ ∧ _ => Roomy.mk h.1 h.2.1 h.2.2,
    fun h => ⟨h.allowed, h.fits, h.visible⟩⟩

/-- The invariant of a run: what the sender is told covers the heap, and with the message that was
granted the heap is within its size. -/
structure Sized (k : ℕ) (f : FiniteBuffer Addr α) : Prop where
  maxSize : f.buffer.maxSize = k
  pop : f.buffer.timeLastTimePop ≤ f.clock.clockEdge
  enqueue : f.buffer.timeLastTimeEnqueue ≤ f.clock.curCycle
  told : f.buffer.prioHeap.length ≤ f.buffer.currentSize f.clock
  size : f.buffer.prioHeap.length + f.granted.toNat ≤ k

end FiniteBuffer

namespace MessageBuffer

/-! ### The counters -/

/-- The counters that the sender's check reads are the same. -/
structure SameCounters (b b' : MessageBuffer Addr α) : Prop where
  maxSize : b'.maxSize = b.maxSize
  timeLastTimePop : b'.timeLastTimePop = b.timeLastTimePop
  timeLastTimeEnqueue : b'.timeLastTimeEnqueue = b.timeLastTimeEnqueue
  sizeAtCycleStart : b'.sizeAtCycleStart = b.sizeAtCycleStart
  msgsThisCycle : b'.msgsThisCycle = b.msgsThisCycle

theorem SameCounters.refl (b : MessageBuffer Addr α) : SameCounters b b := ⟨rfl, rfl, rfl, rfl, rfl⟩

variable {b b' : MessageBuffer Addr α} {clock : ClockedObject}

theorem SameCounters.trans {b'' : MessageBuffer Addr α} (h : SameCounters b b')
    (h' : SameCounters b' b'') : SameCounters b b'' where
  maxSize := h'.maxSize.trans h.maxSize
  timeLastTimePop := h'.timeLastTimePop.trans h.timeLastTimePop
  timeLastTimeEnqueue := h'.timeLastTimeEnqueue.trans h.timeLastTimeEnqueue
  sizeAtCycleStart := h'.sizeAtCycleStart.trans h.sizeAtCycleStart
  msgsThisCycle := h'.msgsThisCycle.trans h.msgsThisCycle

/-- After a pop in the cycle the sender is not told about changes of the heap. -/
theorem SameCounters.currentSize (h : SameCounters b b')
    (hpop : clock.clockEdge ≤ b.timeLastTimePop) :
    b'.currentSize clock = b.currentSize clock := by
  unfold MessageBuffer.currentSize
  have hnot : ¬ b.timeLastTimePop < clock.clockEdge := by omega
  rw [h.timeLastTimePop, h.timeLastTimeEnqueue, h.sizeAtCycleStart, h.msgsThisCycle, if_neg hnot,
    if_neg hnot]

theorem currentSize_of_no_pop (h : b.timeLastTimePop < clock.clockEdge) :
    b.currentSize clock = b.prioHeap.length :=
  if_pos h

theorem sameCounters_reanalyzeList (nextTick : ℕ) (lt : List α) :
    ∀ b : MessageBuffer Addr α, SameCounters b (b.reanalyzeList nextTick lt) := by
  induction lt with
  | nil => exact SameCounters.refl
  | cons m lt ih =>
    intro b
    have hrequeue : SameCounters b (b.requeue nextTick m) := ⟨rfl, rfl, rfl, rfl, rfl⟩
    exact hrequeue.trans (ih _)

theorem sameCounters_reanalyzeAllMessages (b : MessageBuffer Addr α) (receiver : ClockedObject) :
    SameCounters b (b.reanalyzeAllMessages receiver) := by
  have hfold : ∀ (es : List (Addr × List α)) (d : MessageBuffer Addr α),
      SameCounters d (es.foldl (fun b e => b.reanalyzeList (receiver.edgeIn 1) e.2) d) := by
    intro es
    induction es with
    | nil => exact SameCounters.refl
    | cons e es ih => exact fun d => (sameCounters_reanalyzeList _ e.2 d).trans (ih _)
  obtain ⟨h1, h2, h3, h4, h5⟩ := hfold b.stallMsgMap b
  exact ⟨h1, h2, h3, h4, h5⟩

theorem length_heapMsgs (b : MessageBuffer Addr α) : b.heapMsgs.card = b.prioHeap.length := by
  simp [heapMsgs]

/-- What a pop does to the counters, whatever it does to the heap. -/
structure Popped (clock : ClockedObject) (b b' : MessageBuffer Addr α) : Prop where
  shorter : b'.prioHeap.length ≤ b.prioHeap.length
  maxSize : b'.maxSize = b.maxSize
  timeLastTimePop : b'.timeLastTimePop = max b.timeLastTimePop clock.clockEdge
  timeLastTimeEnqueue : b'.timeLastTimeEnqueue = b.timeLastTimeEnqueue
  sizeAtCycleStart : b'.sizeAtCycleStart =
    if b.timeLastTimePop < clock.clockEdge then b.prioHeap.length else b.sizeAtCycleStart
  msgsThisCycle : b'.msgsThisCycle = b.msgsThisCycle

theorem popped_recordPop (b : MessageBuffer Addr α) (clock : ClockedObject)
    {heap : List (MessageBufferNode α)} (map : List (Addr × List α))
    (h : heap.length ≤ b.prioHeap.length) :
    Popped clock b { b.recordPop clock with prioHeap := heap, stallMsgMap := map } := by
  unfold recordPop
  split
  · rename_i hlt
    exact ⟨h, rfl, (max_eq_right (le_of_lt hlt)).symm, rfl, (if_pos hlt).symm, rfl⟩
  · rename_i hge
    exact ⟨h, rfl, (max_eq_left (not_lt.mp hge)).symm, rfl, (if_neg hge).symm, rfl⟩

theorem dequeue_popped (h : b.dequeue clock = .ok b') : Popped clock b b' := by
  obtain ⟨x, rest, hheap, rfl⟩ := dequeue_eq_ok h
  apply popped_recordPop
  obtain ⟨m, hm, hperm⟩ := popHeap_perm MessageBufferNode.key x rest
  rw [hheap, hm, dropLast_concat, hperm.length_eq]
  exact Nat.le_succ _

theorem dequeueAt_popped {pos : ℕ}
    (h : b.dequeueAt clock pos = .ok b') : Popped clock b b' := by
  unfold dequeueAt at h
  split at h
  · cases h
    apply popped_recordPop
    exact (eraseIdx_sublist b.prioHeap pos).length_le
  · cases h

theorem stallMessage_popped [LinearOrder Addr] {addr : Addr}
    (h : b.stallMessage clock addr = .ok b') :
    Popped clock b b' := by
  obtain ⟨x, rest, d, -, hd, rfl⟩ := stallMessage_eq_ok h
  exact { dequeue_popped hd with }

end MessageBuffer

namespace FiniteBuffer

/-! ### One call -/

variable {k : ℕ} {f : FiniteBuffer Addr α}

variable {b : MessageBuffer Addr α}

/-- A pop makes the heap shorter and the size that the sender is told no smaller. -/
theorem Sized.popped (h : f.Sized k) (hb : MessageBuffer.Popped f.clock f.buffer b) : Sized k
    { f with buffer := b } where
  maxSize := hb.maxSize.trans h.maxSize
  pop := by
    have hpop := h.pop
    rw [← max_eq_right hpop, ← hb.timeLastTimePop]
  enqueue := hb.timeLastTimeEnqueue.trans_le h.enqueue
  told := by
    have htold := h.told
    have hshorter := hb.shorter
    show b.prioHeap.length ≤ b.currentSize f.clock
    unfold MessageBuffer.currentSize at htold ⊢
    rw [hb.timeLastTimeEnqueue, hb.sizeAtCycleStart, hb.msgsThisCycle]
    split_ifs at htold ⊢ <;> omega
  size := (Nat.add_le_add_right hb.shorter _).trans h.size

/-- What is put back has room. -/
theorem Sized.requeued (h : f.Sized k) {r : ℕ}
    (hsame : MessageBuffer.SameCounters f.buffer b)
    (hlength : b.prioHeap.length = f.buffer.prioHeap.length + r)
    (hfits : r ≠ 0 → f.buffer.prioHeap.length + r + f.granted.toNat ≤ f.buffer.maxSize)
    (hvisible : r ≠ 0 → f.clock.clockEdge ≤ f.buffer.timeLastTimePop →
      f.buffer.prioHeap.length + r ≤ f.buffer.currentSize f.clock) :
    Sized k { f with buffer := b } where
  maxSize := hsame.maxSize.trans h.maxSize
  pop := hsame.timeLastTimePop.trans_le h.pop
  enqueue := hsame.timeLastTimeEnqueue.trans_le h.enqueue
  told := by
    show b.prioHeap.length ≤ b.currentSize f.clock
    by_cases hpop : f.clock.clockEdge ≤ f.buffer.timeLastTimePop
    · rw [hsame.currentSize hpop, hlength]
      have htold := h.told
      by_cases hr : r = 0
      · omega
      · exact hvisible hr hpop
    · rw [MessageBuffer.currentSize_of_no_pop]
      rw [hsame.timeLastTimePop]
      omega
  size := by
    show b.prioHeap.length + f.granted.toNat ≤ k
    have hsize := h.size
    have hmax := h.maxSize
    by_cases hr : r = 0
    · omega
    · omega

/-- A granted message is counted. -/
theorem Sized.enqueued (h : f.Sized k) (hgranted : f.granted = true) {sender : Sender}
    (hclock : sender.toClockedObject = f.clock) {m : α} {delta : ℕ}
    {isRMWWrite : Bool} (hb : f.buffer.enqueue sender m delta isRMWWrite = .ok b) :
    Sized k { f with buffer := b, granted := false } := by
  have hlength : b.prioHeap.length = f.buffer.prioHeap.length + 1 := by
    rw [← MessageBuffer.length_heapMsgs, ← MessageBuffer.length_heapMsgs,
      MessageBuffer.enqueue_heapMsgs hb, Multiset.card_add, Multiset.card_singleton, add_comm]
  have hsize := h.size
  have htold := h.told
  have henqueue := h.enqueue
  rw [hgranted] at hsize
  unfold MessageBuffer.enqueue at hb
  split at hb
  · cases hb
  · cases hb
    refine ⟨h.maxSize, h.pop, ?_, ?_, ?_⟩
    · rw [hclock]
      exact max_le henqueue le_rfl
    · unfold MessageBuffer.currentSize at htold ⊢
      dsimp only at hlength ⊢
      rw [hclock]
      split_ifs at htold ⊢ <;> omega
    · exact (congrArg (· + 0) hlength).trans_le hsize

/-- A call of the sender's check. -/
theorem Sized.asked (h : f.Sized k) (hk : 0 < k) :
    Sized k { f with granted := f.granted || f.buffer.areNSlotsAvailable f.clock 1 } where
  maxSize := h.maxSize
  pop := h.pop
  enqueue := h.enqueue
  told := h.told
  size := by
    show f.buffer.prioHeap.length + _ ≤ k
    have hsize := h.size
    have htold := h.told
    have hmax := h.maxSize
    cases hgranted : f.granted with
    | true => simpa [hgranted] using hsize
    | false =>
      cases havail : f.buffer.areNSlotsAvailable f.clock 1 with
      | false => simpa [hgranted] using hsize
      | true =>
        unfold MessageBuffer.areNSlotsAvailable at havail
        simp only [Bool.or_eq_true, beq_iff_eq, decide_eq_true_eq] at havail
        show f.buffer.prioHeap.length + 1 ≤ k
        omega

theorem Sized.advanced (h : f.Sized k) {clock : ClockedObject}
    (hcycle : f.clock.curCycle < clock.curCycle) (hedge : f.clock.clockEdge < clock.clockEdge) :
    Sized k { f with clock := clock, granted := false } where
  maxSize := h.maxSize
  pop := h.pop.trans (le_of_lt hedge)
  enqueue := h.enqueue.trans (le_of_lt hcycle)
  told := (MessageBuffer.currentSize_of_no_pop (h.pop.trans_lt hedge)).ge
  size := (Nat.le_add_right _ _).trans h.size

/-- **One call** in a buffer with room for what it puts back. -/
theorem Sized.step [LinearOrder Addr] (hk : 0 < k) (h : f.Sized k) {op : FiniteOp Addr α}
    {f' : FiniteBuffer Addr α} (hroom : f.Roomy op) (hf : f.step op = .ok f') : f'.Sized k := by
  obtain ⟨b, hb, rfl⟩ := Except.bind_pure_eq_ok hf
  cases op with
  | advance clock =>
    cases hb
    exact h.advanced hroom.allowed.1 hroom.allowed.2
  | areNSlotsAvailable =>
    cases hb
    exact h.asked hk
  | enqueue message delta isRMWWrite randomTime warmupEnabled =>
    exact h.enqueued hroom.allowed rfl hb
  | dequeue => exact h.popped (MessageBuffer.dequeue_popped hb)
  | dequeueAt pos => exact h.popped (MessageBuffer.dequeueAt_popped hb)
  | stallMessage addr => exact h.popped (MessageBuffer.stallMessage_popped hb)
  | reanalyzeMessages addr =>
    simp only [bufferAfter, call, MessageBuffer.step, MessageBuffer.reanalyzeMessages] at hb
    split at hb
    · cases hb
    · rename_i lt hlt
      cases hb
      have hcount : f.putBack (.reanalyzeMessages addr) = lt.length := by
        simp [putBack, stalledFor, hlt]
      obtain ⟨h1, h2, h3, h4, h5⟩ :=
        MessageBuffer.sameCounters_reanalyzeList (f.clock.edgeIn 1) lt f.buffer
      refine h.requeued ⟨h1, h2, h3, h4, h5⟩ ?_ hroom.fits hroom.visible
      rw [hcount]
      simpa using (MessageBuffer.reanalyzeList_msgs (f.clock.edgeIn 1) lt f.buffer).length_eq
  | reanalyzeAllMessages =>
    cases hb
    refine h.requeued (MessageBuffer.sameCounters_reanalyzeAllMessages f.buffer f.clock) ?_
      hroom.fits hroom.visible
    simpa [putBack] using (MessageBuffer.reanalyzeAllMessages_msgs f.buffer f.clock).length_eq

end FiniteBuffer

/-- **A finite buffer stays within its size**, in every run that puts stalled messages back only
where there is room for them. -/
theorem message_buffer_within_size [LinearOrder Addr] {k recycleLatency : ℕ} (hk : 0 < k)
    {strictFifo randomization : Bool} {clock : ClockedObject} {ops : List (FiniteOp Addr α)}
    {f : FiniteBuffer Addr α}
    (h : Runs (Within FiniteBuffer.step FiniteBuffer.Roomy)
      { buffer := .create k recycleLatency strictFifo randomization, clock := clock } ops f) :
    f.buffer.prioHeap.length ≤ k := by
  have hsized : f.Sized k := by
    refine h.invariant (fun _ _ _ hs ht => hs.step hk ht.1 ht.2) ?_
    exact ⟨rfl, Nat.zero_le _, Nat.zero_le _, Nat.zero_le _, Nat.zero_le _⟩
  exact (Nat.le_add_right _ _).trans hsized.size

theorem message_buffer_within_size_stalled_message :
    ∃ f : FiniteBuffer ℕ ℕ, Runs (Within FiniteBuffer.step FiniteBuffer.Roomy)
      { buffer := .create 2 1 false false, clock := .tick 1 }
      [.areNSlotsAvailable, .enqueue 7 1 false 1 false, .advance (.tick 2), .stallMessage 64,
        .advance (.tick 3), .areNSlotsAvailable, .enqueue 8 1 false 1 false,
        .reanalyzeMessages 64] f ∧ f.buffer.prioHeap.length ≤ 2 := by
  refine exists_runs_imp_of_execWithin (P := fun _ => True) (by decide +kernel) ?_
  intro f hf _
  exact message_buffer_within_size (by decide) hf

/-- A buffer of size 1: the message that was stalled comes back when its place has been given to
another. -/
theorem stalled_message_overfills :
    ∃ f : FiniteBuffer ℕ ℕ, Runs (Within FiniteBuffer.step FiniteBuffer.Allowed)
      { buffer := .create 1 1 false false, clock := .tick 1 }
      [.areNSlotsAvailable, .enqueue 7 1 false 1 false, .advance (.tick 2), .stallMessage 64,
        .advance (.tick 3), .areNSlotsAvailable, .enqueue 8 1 false 1 false,
        .reanalyzeMessages 64] f ∧ f.buffer.prioHeap.length = 2 :=
  exists_runs_of_execWithin (by decide +kernel)
