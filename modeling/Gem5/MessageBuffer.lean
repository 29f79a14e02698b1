/-
# Message buffers

`MessageBuffer` (`src/mem/ruby/network/MessageBuffer.cc`, `MessageBuffer.hh`,
`MessageBufferNode.hh`): the queue between two components of the memory system.
Its nodes are kept in `m_prio_heap`, a binary heap by arrival time and message
counter; messages that a controller cannot serve yet are set aside by address in
`m_stall_msg_map`.

The clocks of the sender and of the receiver are inputs of the operations.  The
model is compiled as `Trace.hh` has it (`RANDOM_RECV` is 0).  Left out: the
delay bookkeeping inside a message, `m_not_avail_count`, `getSize` and the
consumer's wake-up events, which no operation of the buffer reads back.

* `MessageBuffer.step`          — the mutators, one call at a time.
* `MessageBuffer.PriorityQueue` — what a priority queue promises.
-/
import Gem5.BinaryHeap
import Gem5.TransitionSystem
import Mathlib.Data.Prod.Lex

open List

/-! ## Nodes and clocks -/

/-- What a call reads from the `ClockedObject` at one end of the buffer. -/
structure ClockedObject where
  curCycle : ℕ
  clockEdge : ℕ
  clockPeriod : ℕ

/-- `clockEdge(cycles)`: the clock edge that many cycles ahead. -/
def ClockedObject.edgeIn (c : ClockedObject) (cycles : ℕ) : ℕ := c.clockEdge + cycles * c.clockPeriod

/-- The sending end: its clock, the number `random_time()` draws and the warm-up flag. -/
structure Sender extends ClockedObject where
  randomTime : ℕ := 1
  warmupEnabled : Bool := false

structure MessageBufferNode (α : Type) where
  time : ℕ
  msgCounter : ℕ
  msg : α
  deriving DecidableEq, Repr

/-- The order of `operator<` and `operator>`: by time, then by counter. -/
def MessageBufferNode.key {α : Type} (x : MessageBufferNode α) : ℕ ×ₗ ℕ := toLex (x.time, x.msgCounter)

/-- The fields of a buffer that its operations use. -/
structure MessageBuffer (Addr α : Type) where
  prioHeap : List (MessageBufferNode α) := []
  stallMsgMap : List (Addr × List α) := []
  msgCounter : ℕ := 0
  maxSize : ℕ := 0
  timeLastTimeEnqueue : ℕ := 0
  timeLastTimePop : ℕ := 0
  lastArrivalTime : ℕ := 0
  sizeAtCycleStart : ℕ := 0
  msgsThisCycle : ℕ := 0
  recycleLatency : ℕ := 1
  strictFifo : Bool := false
  randomization : Bool := false

variable {Addr α : Type}

/-! ## The stall map -/

/-- `m_stall_msg_map[addr].push_back(m)` on a `std::map`, which is sorted by address. -/
def pushStalled [LinearOrder Addr] (addr : Addr) (m : α) : List (Addr × List α) → List (Addr × List α)
  | [] => [(addr, [m])]
  | (a, ms) :: rest =>
    if addr < a then (addr, [m]) :: (a, ms) :: rest
    else if addr = a then (a, ms ++ [m]) :: rest
    else (a, ms) :: pushStalled addr m rest

/-- `erase(addr)` on a map with addresses as keys. -/
def eraseAddr [DecidableEq Addr] {γ : Type} (addr : Addr) (map : List (Addr × γ)) :
    List (Addr × γ) :=
  map.filter fun e => decide (e.1 ≠ addr)

/-- The keys of the map are in order. -/
def StallSorted [LinearOrder Addr] (l : List (Addr × List α)) : Prop :=
  l.Pairwise fun e f => e.1 < f.1

/-- The messages stalled for the address. -/
def stalledFor [DecidableEq Addr] (l : List (Addr × List α)) (a : Addr) : List α :=
  (l.lookup a).getD []

theorem lookup_cons_addr [DecidableEq Addr] {γ : Type} (k : Addr) (v : γ) (l : List (Addr × γ))
    (c : Addr) : lookup c ((k, v) :: l) = if c = k then some v else l.lookup c := by
  rw [lookup_cons]
  by_cases hc : c = k
  · simp [hc]
  · simp [hc, beq_false_of_ne hc]

theorem lookup_eraseAddr [DecidableEq Addr] {γ : Type} (a : Addr) (l : List (Addr × γ)) (c : Addr) :
    (eraseAddr a l).lookup c = if c = a then none else l.lookup c := by
  induction l with
  | nil => simp [eraseAddr]
  | cons e rest ih =>
    obtain ⟨k, v⟩ := e
    unfold eraseAddr at ih ⊢
    rw [filter_cons, lookup_cons_addr]
    rcases eq_or_ne k a with rfl | hk
    · simp only [ne_eq, not_true_eq_false, decide_false, Bool.false_eq_true, if_false, ih]
      split <;> rfl
    · simp only [ne_eq, hk, not_false_eq_true, decide_true, if_true, lookup_cons_addr, ih]
      rcases eq_or_ne c k with rfl | hc
      · simp [hk]
      · simp [hc]

section Sorted

variable [LinearOrder Addr]

variable {l : List (Addr × List α)} {a : Addr}

/-- Every entry has an address above `a`, so `a` has none. -/
theorem lookup_eq_none_of_lt (h : ∀ e ∈ l, a < e.1) :
    l.lookup a = none := by
  rw [lookup_eq_none_iff]
  intro e he
  simpa using ne_of_lt (h e he)

theorem lookup_pushStalled (a : Addr) (m : α) (l : List (Addr × List α)) :
    StallSorted l → ∀ c, (pushStalled a m l).lookup c =
      if c = a then some (stalledFor l a ++ [m]) else l.lookup c := by
  induction l with
  | nil =>
    intro _ c
    rw [pushStalled, lookup_cons_addr]
    simp [stalledFor]
  | cons e rest ih =>
    obtain ⟨k, ms⟩ := e
    intro hs c
    obtain ⟨hk, hrest⟩ := pairwise_cons.mp hs
    unfold pushStalled stalledFor
    rcases lt_trichotomy a k with hlt | heq | hgt
    · have hnone : lookup a ((k, ms) :: rest) = none :=
        lookup_eq_none_of_lt fun e he => by
          rcases mem_cons.mp he with rfl | he
          · exact hlt
          · exact hlt.trans (hk e he)
      rw [if_pos hlt, lookup_cons_addr, hnone]
      rfl
    · subst heq
      simp only [lt_irrefl, if_false, if_true, lookup_cons_addr]
      by_cases hc : c = a
      · simp [hc]
      · simp [hc]
    · rw [if_neg (not_lt_of_gt hgt), if_neg (ne_of_gt hgt), lookup_cons_addr, ih hrest c,
        lookup_cons_addr, lookup_cons_addr, if_neg (ne_of_gt hgt)]
      rcases eq_or_ne c k with rfl | hc
      · rw [if_pos rfl, if_neg (ne_of_lt hgt), if_pos rfl]
      · rw [if_neg hc, if_neg hc]
        rfl

theorem mem_pushStalled_key {m : α} {e : Addr × List α}
    (he : e ∈ pushStalled a m l) : e.1 = a ∨ ∃ f ∈ l, f.1 = e.1 := by
  induction l with
  | nil =>
    rw [pushStalled, mem_singleton] at he
    exact .inl (by rw [he])
  | cons f rest ih =>
    obtain ⟨k, ms⟩ := f
    unfold pushStalled at he
    split at he
    · rcases mem_cons.mp he with rfl | he
      · exact .inl rfl
      · exact .inr ⟨e, he, rfl⟩
    · split at he
      · rcases mem_cons.mp he with rfl | he
        · exact .inr ⟨(k, ms), mem_cons_self, rfl⟩
        · exact .inr ⟨e, mem_cons_of_mem _ he, rfl⟩
      · rcases mem_cons.mp he with rfl | he
        · exact .inr ⟨(k, ms), mem_cons_self, rfl⟩
        · rcases ih he with h | ⟨f, hf, hfe⟩
          · exact .inl h
          · exact .inr ⟨f, mem_cons_of_mem _ hf, hfe⟩

theorem stallSorted_pushStalled {m : α} (h : StallSorted l) : StallSorted (pushStalled a m l) := by
  induction l with
  | nil => exact pairwise_singleton _ _
  | cons e rest ih =>
    obtain ⟨hk, hrest⟩ := pairwise_cons.mp h
    unfold pushStalled
    split
    · rename_i hlt
      refine pairwise_cons.mpr ⟨fun f hf => ?_, h⟩
      rcases mem_cons.mp hf with rfl | hf
      · exact hlt
      · exact hlt.trans (hk f hf)
    · rename_i hnlt
      split
      · exact pairwise_cons.mpr ⟨hk, hrest⟩
      · rename_i hne
        refine pairwise_cons.mpr ⟨fun f hf => ?_, ih hrest⟩
        rcases mem_pushStalled_key hf with hfa | ⟨g, hg, hgf⟩
        · rw [hfa]
          exact lt_of_le_of_ne (not_lt.mp hnlt) (Ne.symm hne)
        · rw [← hgf]
          exact hk g hg

end Sorted

namespace MessageBuffer

/-! ## Operations -/

variable (b : MessageBuffer Addr α)

/-- `isReady()`: the front has arrived. -/
def isReady (receiver : ClockedObject) : Bool :=
  match b.prioHeap with
  | [] => false
  | x :: _ => decide (x.time ≤ receiver.clockEdge)

/-- `isReady(pos)`. -/
def isReadyAt (receiver : ClockedObject) (pos : ℕ) : Bool :=
  match b.prioHeap[pos]? with
  | none => false
  | some x => decide (x.time ≤ receiver.clockEdge)

/-- The size a sender sees: pops do not count before the next cycle. -/
def currentSize (sender : ClockedObject) : ℕ :=
  if b.timeLastTimePop < sender.clockEdge then b.prioHeap.length
  else if b.timeLastTimeEnqueue < sender.curCycle then b.sizeAtCycleStart
  else b.sizeAtCycleStart + b.msgsThisCycle

def areNSlotsAvailable (sender : ClockedObject) (n : ℕ) : Bool :=
  b.maxSize == 0 || decide (b.currentSize sender + n ≤ b.maxSize)

/-- `m_last_arrival_time` as `enqueue` compares with it. -/
def lastArrival (sender : Sender) : ℕ :=
  if b.randomization && b.strictFifo then max b.lastArrivalTime sender.clockEdge
  else b.lastArrivalTime

/-- The tick from which on the new message can be dequeued. -/
def arrivalTime (sender : Sender) (delta : ℕ) : ℕ :=
  if b.randomization then
    if b.strictFifo then b.lastArrival sender + sender.clockPeriod
    else sender.clockEdge + sender.randomTime * sender.clockPeriod
  else sender.clockEdge + delta * sender.clockPeriod

/-- The heap with a new node: a read-modify-write is put at the front, and the heap is restored
with the other comparator. -/
def insertNode (heap : List (MessageBufferNode α)) (x : MessageBufferNode α) (isRMWWrite : Bool) :
    List (MessageBufferNode α) :=
  if isRMWWrite then pushHeap (fun y => OrderDual.toDual y.key) (x :: heap)
  else pushHeap MessageBufferNode.key (heap ++ [x])

def enqueue (sender : Sender) (message : α) (delta : ℕ)
    (isRMWWrite : Bool) : Except Abort (MessageBuffer Addr α) :=
  if delta = 0 ∨ b.arrivalTime sender delta ≤ sender.clockEdge ∨
      b.strictFifo = true ∧ b.arrivalTime sender delta < b.lastArrival sender then
    .error .assertion
  else
    .ok { b with
      msgCounter := b.msgCounter + 1
      msgsThisCycle := if b.timeLastTimeEnqueue < sender.curCycle then 1 else b.msgsThisCycle + 1
      timeLastTimeEnqueue := max b.timeLastTimeEnqueue sender.curCycle
      lastArrivalTime :=
        if sender.warmupEnabled then b.lastArrival sender else b.arrivalTime sender delta
      prioHeap :=
        insertNode b.prioHeap ⟨b.arrivalTime sender delta, b.msgCounter + 1, message⟩ isRMWWrite }

/-- What the two `dequeue` functions record for `areNSlotsAvailable`. -/
def recordPop (receiver : ClockedObject) : MessageBuffer Addr α :=
  if b.timeLastTimePop < receiver.clockEdge then
    { b with sizeAtCycleStart := b.prioHeap.length, timeLastTimePop := receiver.clockEdge }
  else b

@[simp] theorem recordPop_stallMsgMap (b : MessageBuffer Addr α) (receiver : ClockedObject) :
    (b.recordPop receiver).stallMsgMap = b.stallMsgMap := by
  unfold recordPop
  split <;> rfl

@[simp] theorem recordPop_msgCounter (b : MessageBuffer Addr α) (receiver : ClockedObject) :
    (b.recordPop receiver).msgCounter = b.msgCounter := by
  unfold recordPop
  split <;> rfl

/-- `dequeue()`. -/
def dequeue (receiver : ClockedObject) :
    Except Abort (MessageBuffer Addr α) :=
  if b.prioHeap = [] then .error .undefined
  else .ok { b.recordPop receiver with
    prioHeap := (popHeap MessageBufferNode.key b.prioHeap).dropLast }

/-- `dequeue(pos)`: the node is erased where it stands. -/
def dequeueAt (receiver : ClockedObject) (pos : ℕ) :
    Except Abort (MessageBuffer Addr α) :=
  if pos < b.prioHeap.length then
    .ok { b.recordPop receiver with prioHeap := b.prioHeap.eraseIdx pos }
  else .error .undefined

/-- The front goes back into the heap with a later time. -/
def recycle (receiver : ClockedObject) :
    Except Abort (MessageBuffer Addr α) :=
  match b.prioHeap with
  | [] => .error .undefined
  | x :: _ =>
    .ok { b with
      prioHeap := pushHeap MessageBufferNode.key
        ((popHeap MessageBufferNode.key b.prioHeap).dropLast ++
          [{ x with time := receiver.edgeIn b.recycleLatency }]) }

def delayHead (sender : Sender) : Except Abort (MessageBuffer Addr α) :=
  match b.prioHeap with
  | [] => .error .undefined
  | x :: _ =>
    enqueue { b with prioHeap := (popHeap MessageBufferNode.key b.prioHeap).dropLast } sender
      x.msg 1 false

/-- The front is dequeued and set aside for the address. -/
def stallMessage [LinearOrder Addr] (b : MessageBuffer Addr α) (receiver : ClockedObject)
    (addr : Addr) : Except Abort (MessageBuffer Addr α) :=
  match b.prioHeap with
  | [] => .error .undefined
  | x :: _ =>
    (b.dequeue receiver).map fun b' =>
      { b' with stallMsgMap := pushStalled addr x.msg b'.stallMsgMap }

/-- One round of `reanalyzeList`: a message goes back into the heap. -/
def requeue (nextTick : ℕ) (m : α) : MessageBuffer Addr α :=
  { b with
    msgCounter := b.msgCounter + 1
    prioHeap := insertNode b.prioHeap ⟨nextTick, b.msgCounter + 1, m⟩ false }

def reanalyzeList (b : MessageBuffer Addr α) (nextTick : ℕ) : List α → MessageBuffer Addr α
  | [] => b
  | m :: lt => (b.requeue nextTick m).reanalyzeList nextTick lt

def reanalyzeMessages [DecidableEq Addr] (b : MessageBuffer Addr α) (receiver : ClockedObject)
    (addr : Addr) : Except Abort (MessageBuffer Addr α) :=
  match b.stallMsgMap.lookup addr with
  | none => .error .assertion
  | some lt =>
    .ok { b.reanalyzeList (receiver.edgeIn 1) lt with
      stallMsgMap := eraseAddr addr b.stallMsgMap }

def reanalyzeAllMessages (receiver : ClockedObject) :
    MessageBuffer Addr α :=
  { b.stallMsgMap.foldl (fun b e => b.reanalyzeList (receiver.edgeIn 1) e.2) b with
    stallMsgMap := [] }
/-! What is known when a call has returned. -/

variable {b b' : MessageBuffer Addr α} {receiver : ClockedObject} {addr : Addr}

theorem dequeue_eq_ok (h : b.dequeue receiver = .ok b') : ∃ x rest, b.prioHeap = x :: rest ∧
      b' = { b.recordPop receiver with
        prioHeap := (popHeap MessageBufferNode.key b.prioHeap).dropLast } := by
  unfold dequeue at h
  split at h
  · cases h
  · rename_i hne
    obtain ⟨x, rest, hheap⟩ := exists_cons_of_ne_nil hne
    exact ⟨x, rest, hheap, (Except.ok.inj h).symm⟩

theorem stallMessage_eq_ok [LinearOrder Addr] (h : b.stallMessage receiver addr = .ok b') :
    ∃ x rest d, b.prioHeap = x :: rest ∧ b.dequeue receiver = .ok d ∧
      b' = { d with stallMsgMap := pushStalled addr x.msg d.stallMsgMap } := by
  unfold stallMessage at h
  split at h
  · cases h
  · rename_i x rest hheap
    cases hd : b.dequeue receiver with
    | error e =>
      rw [hd] at h
      cases h
    | ok d =>
      rw [hd] at h
      exact ⟨x, rest, d, hheap, rfl, (Except.ok.inj h).symm⟩

/-! What the operations do to the stall map. -/

theorem enqueue_stallMsgMap {sender : Sender} {m : α}
    {delta : ℕ} {isRMWWrite : Bool} (h : b.enqueue sender m delta isRMWWrite = .ok b') :
    b'.stallMsgMap = b.stallMsgMap := by
  unfold enqueue at h
  split at h
  · cases h
  · cases h
    rfl

theorem dequeue_stallMsgMap (h : b.dequeue receiver = .ok b') : b'.stallMsgMap = b.stallMsgMap := by
  obtain ⟨x, rest, -, rfl⟩ := dequeue_eq_ok h
  simp

theorem stallMessage_stallMsgMap [LinearOrder Addr] (h : b.stallMessage receiver addr = .ok b') :
    ∃ m, b'.stallMsgMap = pushStalled addr m b.stallMsgMap := by
  obtain ⟨x, rest, d, -, hd, rfl⟩ := stallMessage_eq_ok h
  exact ⟨x.msg, by rw [← dequeue_stallMsgMap hd]⟩

theorem reanalyzeMessages_stallMsgMap [DecidableEq Addr]
    (h : b.reanalyzeMessages receiver addr = .ok b') :
    b'.stallMsgMap = eraseAddr addr b.stallMsgMap := by
  unfold reanalyzeMessages at h
  split at h
  · cases h
  · cases h
    rfl

/-! A wake-up moves the stalled messages back into the heap and loses none. -/

theorem requeue_perm (b : MessageBuffer Addr α) (nextTick : ℕ) (m : α) :
    (b.requeue nextTick m).prioHeap.Perm (b.prioHeap ++ [⟨nextTick, b.msgCounter + 1, m⟩]) :=
  pushHeap_perm _ _ _

theorem reanalyzeList_msgs (nextTick : ℕ) (lt : List α) : ∀ b : MessageBuffer Addr α,
    ((b.reanalyzeList nextTick lt).prioHeap.map MessageBufferNode.msg).Perm
      (b.prioHeap.map MessageBufferNode.msg ++ lt) := by
  induction lt with
  | nil => simp [reanalyzeList]
  | cons m lt ih =>
    intro b
    refine (ih _).trans ?_
    have := ((requeue_perm b nextTick m).map MessageBufferNode.msg).append_right lt
    simpa [append_assoc] using this

theorem reanalyzeAllMessages_msgs (b : MessageBuffer Addr α) (receiver : ClockedObject) :
    ((b.reanalyzeAllMessages receiver).prioHeap.map MessageBufferNode.msg).Perm
      (b.prioHeap.map MessageBufferNode.msg ++ b.stallMsgMap.flatMap Prod.snd) := by
  -- the fold runs over the map of the buffer it starts from
  have hfold : ∀ (map : List (Addr × List α)) (d : MessageBuffer Addr α),
      ((map.foldl (fun b e => b.reanalyzeList (receiver.edgeIn 1) e.2) d).prioHeap.map
        MessageBufferNode.msg).Perm
        (d.prioHeap.map MessageBufferNode.msg ++ map.flatMap Prod.snd) := by
    intro map
    induction map with
    | nil => simp
    | cons e map ih =>
      intro d
      refine (ih _).trans ?_
      have := (reanalyzeList_msgs (receiver.edgeIn 1) e.2 d).append_right
        (map.flatMap Prod.snd)
      simpa [append_assoc] using this
  exact hfold b.stallMsgMap b

end MessageBuffer

/-! ## Runs -/

/-- The mutators of a buffer. -/
inductive BufferOp (Addr α : Type)
  | enqueue (sender : Sender) (message : α) (delta : ℕ) (isRMWWrite : Bool)
  | dequeue (receiver : ClockedObject)
  | dequeueAt (receiver : ClockedObject) (pos : ℕ)
  | recycle (receiver : ClockedObject)
  | delayHead (sender : Sender)
  | stallMessage (receiver : ClockedObject) (addr : Addr)
  | reanalyzeMessages (receiver : ClockedObject) (addr : Addr)
  | reanalyzeAllMessages (receiver : ClockedObject)

namespace MessageBuffer

def step [LinearOrder Addr] (b : MessageBuffer Addr α) : BufferOp Addr α → Except Abort (MessageBuffer Addr α)
  | .enqueue sender message delta isRMWWrite => b.enqueue sender message delta isRMWWrite
  | .dequeue receiver => b.dequeue receiver
  | .dequeueAt receiver pos => b.dequeueAt receiver pos
  | .recycle receiver => b.recycle receiver
  | .delayHead sender => b.delayHead sender
  | .stallMessage receiver addr => b.stallMessage receiver addr
  | .reanalyzeMessages receiver addr => b.reanalyzeMessages receiver addr
  | .reanalyzeAllMessages receiver => .ok (b.reanalyzeAllMessages receiver)

/-- A buffer as its constructor and the configuration leave it. -/
def create (maxSize recycleLatency : ℕ) (strictFifo randomization : Bool) : MessageBuffer Addr α :=
  { maxSize, recycleLatency, strictFifo, randomization }

/-- **What a priority queue promises**: the front is least, `dequeue()` removes it and nothing
else, and `isReady()` tells whether some message has arrived. -/
structure PriorityQueue (b : MessageBuffer Addr α) : Prop where
  front : ∀ x ∈ b.prioHeap.head?, ∀ y ∈ b.prioHeap, x.key ≤ y.key
  dequeue : ∀ receiver b', b.dequeue receiver = .ok b' →
    ∃ x ∈ b.prioHeap.head?, (x :: b'.prioHeap).Perm b.prioHeap
  isReady : ∀ receiver, b.isReady receiver = true ↔
    ∃ x ∈ b.prioHeap, x.time ≤ receiver.clockEdge

/-- The heap order. -/
def Heaped (b : MessageBuffer Addr α) : Prop := IsHeap MessageBufferNode.key b.prioHeap

end MessageBuffer

theorem MessageBufferNode.time_le {x y : MessageBufferNode α} (h : x.key ≤ y.key) :
    x.time ≤ y.time := by
  rcases (Prod.Lex.le_iff).mp h with h | h
  · exact le_of_lt h
  · exact le_of_eq h.1

namespace MessageBuffer

variable {b b' : MessageBuffer Addr α}

theorem Heaped.front_le (h : b.Heaped) {x : MessageBufferNode α}
    (hx : x ∈ b.prioHeap.head?) : ∀ y ∈ b.prioHeap, x.key ≤ y.key := by
  intro y hy
  rw [head?_eq_getElem?] at hx
  obtain ⟨i, hi⟩ := mem_iff_getElem?.mp hy
  exact h.key_front_le hx i y hi

/-- What `pop_heap` and `pop_back` leave of a heap. -/
theorem Heaped.pop (h : b.Heaped) {x : MessageBufferNode α}
    {rest : List (MessageBufferNode α)} (hheap : b.prioHeap = x :: rest) :
    IsHeap MessageBufferNode.key (popHeap MessageBufferNode.key b.prioHeap).dropLast ∧
      (popHeap MessageBufferNode.key b.prioHeap).dropLast.Perm rest := by
  unfold Heaped at h
  rw [hheap] at h ⊢
  obtain ⟨m, hm, hmheap, hperm⟩ := popHeap_eq h
  rw [hm, dropLast_concat]
  exact ⟨hmheap, hperm⟩

/-- What `dequeue()` leaves of a heap. -/
theorem Heaped.dequeue (h : b.Heaped) {receiver : ClockedObject}
    (hb : b.dequeue receiver = .ok b') :
    ∃ x rest, b.prioHeap = x :: rest ∧ b'.prioHeap.Perm rest ∧ b'.Heaped ∧
      b'.stallMsgMap = b.stallMsgMap ∧ b'.msgCounter = b.msgCounter := by
  obtain ⟨x, rest, hheap, rfl⟩ := dequeue_eq_ok hb
  obtain ⟨hmheap, hperm⟩ := h.pop hheap
  exact ⟨x, rest, hheap, hperm, hmheap, by simp, by simp⟩

/-- A heap is a priority queue. -/
theorem Heaped.priorityQueue (h : b.Heaped) : b.PriorityQueue where
  front := fun _ hx => h.front_le hx
  dequeue := by
    intro receiver b' hb
    obtain ⟨x, rest, hheap, hperm, -⟩ := h.dequeue hb
    exact ⟨x, by simp [hheap], by rw [hheap]; exact hperm.cons x⟩
  isReady := by
    intro receiver
    cases hheap : b.prioHeap with
    | nil => simp [MessageBuffer.isReady, hheap]
    | cons x rest =>
      have hx : x ∈ b.prioHeap.head? := by simp [hheap]
      simp only [MessageBuffer.isReady, hheap, decide_eq_true_eq]
      constructor
      · intro hr
        exact ⟨x, by simp, hr⟩
      · rintro ⟨y, hy, hr⟩
        have hle := MessageBufferNode.time_le (h.front_le hx y (by simpa [hheap] using hy))
        exact hle.trans hr

/-! ## Which runs keep the heap -/

/-- The calls that keep the heap order: a read-modify-write only into an empty buffer, and
`dequeue(pos)` only of the last node. -/
def KeepsHeap (b : MessageBuffer Addr α) : BufferOp Addr α → Prop
  | .enqueue _ _ _ isRMWWrite => isRMWWrite = true → b.prioHeap = []
  | .dequeueAt _ pos => pos + 1 = b.prioHeap.length
  | _ => True

instance (b : MessageBuffer Addr α) : (op : BufferOp Addr α) → Decidable (b.KeepsHeap op)
  | .enqueue _ _ _ isRMWWrite => inferInstanceAs (Decidable (isRMWWrite = true → b.prioHeap = []))
  | .dequeueAt _ pos => inferInstanceAs (Decidable (pos + 1 = b.prioHeap.length))
  | .dequeue _ | .recycle _ | .delayHead _ | .stallMessage _ _ | .reanalyzeMessages _ _
  | .reanalyzeAllMessages _ => inferInstanceAs (Decidable True)

theorem isHeap_insertNode {heap : List (MessageBufferNode α)} {isRMWWrite : Bool}
    (h : IsHeap MessageBufferNode.key heap) (x : MessageBufferNode α)
    (hrmw : isRMWWrite = true → heap = []) :
    IsHeap MessageBufferNode.key (insertNode heap x isRMWWrite) := by
  cases isRMWWrite with
  | false => exact isHeap_pushHeap h
  | true =>
    -- a single node is a heap for both comparators
    have hone : insertNode [] x true = insertNode [] x false := by
      simp [insertNode, pushHeap, siftUp]
    rw [hrmw rfl] at h ⊢
    rw [hone]
    exact isHeap_pushHeap h

theorem Heaped.enqueue (h : b.Heaped) {sender : Sender} {m : α}
    {delta : ℕ} {isRMWWrite : Bool} (hrmw : isRMWWrite = true → b.prioHeap = [])
    (hb : b.enqueue sender m delta isRMWWrite = .ok b') : b'.Heaped := by
  unfold MessageBuffer.enqueue at hb
  split at hb
  · cases hb
  · cases hb
    exact isHeap_insertNode h _ hrmw

theorem Heaped.requeue (h : b.Heaped) (nextTick : ℕ) (m : α) :
    (b.requeue nextTick m).Heaped := by
  show IsHeap _ (insertNode b.prioHeap _ false)
  exact isHeap_insertNode h _ (by simp)

theorem Heaped.reanalyzeList {nextTick : ℕ} (lt : List α) :
    ∀ {b : MessageBuffer Addr α}, b.Heaped → (b.reanalyzeList nextTick lt).Heaped := by
  induction lt with
  | nil => exact fun h => h
  | cons m lt ih => exact fun h => ih (h.requeue nextTick m)

/-- One call keeps the heap order. -/
theorem Heaped.step [LinearOrder Addr] {op : BufferOp Addr α}
    (h : b.Heaped) (hok : b.KeepsHeap op) (hb : b.step op = .ok b') : b'.Heaped := by
  cases op with
  | enqueue sender message delta isRMWWrite => exact h.enqueue hok hb
  | dequeue receiver =>
    obtain ⟨x, rest, -, -, h', -⟩ := h.dequeue hb
    exact h'
  | dequeueAt receiver pos =>
    simp only [MessageBuffer.step, dequeueAt] at hb
    split at hb
    · cases hb
      have hlast : b.prioHeap.eraseIdx pos = b.prioHeap.dropLast := by
        rw [← eraseIdx_length_sub_one]
        congr 1
        simp only [KeepsHeap] at hok
        omega
      show IsHeap _ (b.prioHeap.eraseIdx pos)
      rw [hlast]
      exact IsHeap.dropLast _ h
    · cases hb
  | recycle receiver =>
    simp only [MessageBuffer.step, recycle] at hb
    split at hb
    · cases hb
    · rename_i x rest hheap
      cases hb
      exact isHeap_pushHeap (h.pop hheap).1
  | delayHead sender =>
    simp only [MessageBuffer.step, delayHead] at hb
    split at hb
    · cases hb
    · rename_i x rest hheap
      have hpop : Heaped { b with
          prioHeap := (popHeap MessageBufferNode.key b.prioHeap).dropLast } := (h.pop hheap).1
      exact hpop.enqueue (by simp) hb
  | stallMessage receiver addr =>
    obtain ⟨x, rest, d, -, hd, rfl⟩ := stallMessage_eq_ok hb
    obtain ⟨_, _, -, -, h', -⟩ := h.dequeue hd
    exact h'
  | reanalyzeMessages receiver addr =>
    simp only [MessageBuffer.step, reanalyzeMessages] at hb
    split at hb
    · cases hb
    · cases hb
      exact h.reanalyzeList _
  | reanalyzeAllMessages receiver =>
    cases hb
    have hfold : ∀ (es : List (Addr × List α)) {b : MessageBuffer Addr α}, b.Heaped →
        (es.foldl (fun b e => b.reanalyzeList (receiver.edgeIn 1) e.2) b).Heaped := by
      intro es
      induction es with
      | nil => exact fun h => h
      | cons e es ih => exact fun h => ih (h.reanalyzeList _)
    exact hfold _ h

end MessageBuffer

/-- **A message buffer is a priority queue** in every state of a run that keeps the heap. -/
theorem message_buffer_priority_queue [LinearOrder Addr] {maxSize recycleLatency : ℕ}
    {strictFifo randomization : Bool} {ops : List (BufferOp Addr α)} {b : MessageBuffer Addr α}
    (h : Runs (Within MessageBuffer.step MessageBuffer.KeepsHeap)
      (MessageBuffer.create maxSize recycleLatency strictFifo randomization) ops b) :
    b.PriorityQueue := by
  have hheap : b.Heaped := by
    refine h.invariant (fun s op t hs ht => hs.step ht.1 ht.2) ?_
    intro i x y hx
    simp [MessageBuffer.create] at hx
  exact hheap.priorityQueue

/-- A clock of period 1 at the tick `t`. -/
def ClockedObject.tick (t : ℕ) : ClockedObject := ⟨t, t, 1⟩

def Sender.tick (t : ℕ) : Sender := { ClockedObject.tick t with }

theorem message_buffer_priority_queue_two_messages :
    ∃ b : MessageBuffer ℕ ℕ, Runs (Within MessageBuffer.step MessageBuffer.KeepsHeap)
      (MessageBuffer.create 0 1 false false)
      [.enqueue (.tick 0) 7 20 false, .enqueue (.tick 0) 8 10 false, .dequeueAt (.tick 20) 1] b ∧
        b.PriorityQueue := by
  refine exists_runs_imp_of_execWithin (P := fun _ => True) (by decide +kernel) ?_
  intro b hb _
  exact message_buffer_priority_queue hb

/-- Two ways to lose the front: `dequeue(0)` moves the second node there, and a read-modify-write
is put before an earlier message.  Both buffers then hold a message that has arrived and are not
ready. -/
theorem message_buffer_loses_front :
    (∃ b : MessageBuffer ℕ ℕ, Runs (Within MessageBuffer.step Anytime)
      (MessageBuffer.create 0 1 false false)
      [.enqueue (.tick 0) 1 10 false, .enqueue (.tick 0) 2 30 false, .enqueue (.tick 0) 3 20 false,
        .dequeueAt (.tick 10) 0] b ∧
      b.prioHeap.map MessageBufferNode.time = [30, 20] ∧ b.isReady (.tick 20) = false) ∧
    ∃ b : MessageBuffer ℕ ℕ, Runs (Within MessageBuffer.step Anytime)
      (MessageBuffer.create 0 1 false false)
      [.enqueue (.tick 0) 1 10 false, .enqueue (.tick 0) 2 20 true] b ∧
      b.prioHeap.map MessageBufferNode.time = [20, 10] ∧ b.isReady (.tick 10) = false :=
  ⟨exists_runs_of_execWithin (by decide +kernel), exists_runs_of_execWithin (by decide +kernel)⟩
