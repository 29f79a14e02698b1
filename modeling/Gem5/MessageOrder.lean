/-
# The order of messages for one address

A consumer takes the front of a `MessageBuffer` each time, either for good
(`dequeue()`) or to set it aside for its address (`stallMessage`), and wakes
addresses with `reanalyzeMessages` and `reanalyzeAllMessages`.  The directory
relies on requests for one line being served in the order in which they were put
in.  What was enqueued for an address is, in this order,

  what was dequeued, what is stalled, what is in the heap by key,

as long as messages come back from the stall map before those still in the heap
(`Channel.KeepsOrder`).
-/
import Gem5.MessageBuffer

open List

variable {Addr α : Type}

/-! ## The consumer -/

/-- A buffer with what went in and out of it. -/
structure Channel (Addr α : Type) where
  buffer : MessageBuffer Addr α
  enqueued : List α := []
  dequeued : List α := []

/-- The sender's enqueue, and what the consumer does with the front and the stalled messages. -/
inductive ChannelOp (Addr α : Type)
  | enqueue (sender : Sender) (message : α) (isRMWWrite : Bool)
  | dequeue (receiver : ClockedObject)
  | stall (receiver : ClockedObject)
  | wake (receiver : ClockedObject) (addr : Addr)
  | wakeAll (receiver : ClockedObject)

section Model

variable [LinearOrder Addr] (addr : α → Addr) (delta : ℕ)

variable (c : Channel Addr α)

/-- The front, if it has arrived. -/
def Channel.front (receiver : ClockedObject) :
    Except Abort (MessageBufferNode α) :=
  match c.buffer.prioHeap with
  | [] => .error .undefined
  | x :: _ => if c.buffer.isReady receiver then .ok x else .error .assertion

/-- One step of the channel: all messages are enqueued with the same delta, and a message is
stalled for its own address. -/
def Channel.step : ChannelOp Addr α → Except Abort (Channel Addr α)
  | .enqueue sender message isRMWWrite => do
    let b ← c.buffer.enqueue sender message delta isRMWWrite
    pure { c with buffer := b, enqueued := c.enqueued ++ [message] }
  | .dequeue receiver => do
    let x ← c.front receiver
    let b ← c.buffer.dequeue receiver
    pure { c with buffer := b, dequeued := c.dequeued ++ [x.msg] }
  | .stall receiver => do
    let x ← c.front receiver
    let b ← c.buffer.stallMessage receiver (addr x.msg)
    pure { c with buffer := b }
  | .wake receiver a => do
    let b ← c.buffer.reanalyzeMessages receiver a
    pure { c with buffer := b }
  | .wakeAll receiver => pure { c with buffer := c.buffer.reanalyzeAllMessages receiver }

/-- The channel before the first message; no randomization. -/
def Channel.create (maxSize recycleLatency : ℕ) (strictFifo : Bool) : Channel Addr α where
  buffer := MessageBuffer.create maxSize recycleLatency strictFifo false

/-- The steps that keep the order.  A new message arrives no earlier than the queued messages for
its address, a message is not dequeued past a stalled one for its address, and a stalled message
is woken only when every queued message for its address arrives after it. -/
def Channel.KeepsOrder : ChannelOp Addr α → Prop
  | .enqueue sender m isRMWWrite => isRMWWrite = false ∧
    ∀ x ∈ c.buffer.prioHeap, addr x.msg = addr m → x.time ≤ c.buffer.arrivalTime sender delta
  | .dequeue _ => ∀ x ∈ c.buffer.prioHeap.head?, stalledFor c.buffer.stallMsgMap (addr x.msg) = []
  | .stall _ => True
  | .wake receiver a => ∀ x ∈ c.buffer.prioHeap, addr x.msg = a → receiver.edgeIn 1 < x.time
  | .wakeAll receiver => ∀ x ∈ c.buffer.prioHeap,
    c.buffer.stallMsgMap.lookup (addr x.msg) ≠ none → receiver.edgeIn 1 < x.time

/-- The messages for one address. -/
def forAddr (a : Addr) (l : List α) : List α := l.filter fun m => decide (addr m = a)

end Model

/-! ## The queued messages of one address, by key -/

section Lined

variable [DecidableEq Addr] (addr : α → Addr)

/-- The queued messages for `a`, by key, are what comes after `front` in `all`. -/
def Lined (a : Addr) (heap : List (MessageBufferNode α)) (front all : List α) : Prop :=
  ∃ nodes : List (MessageBufferNode α), nodes.Pairwise (fun x y => x.key < y.key) ∧
    nodes.Perm (heap.filter fun x => decide (addr x.msg = a)) ∧
      all = front ++ nodes.map MessageBufferNode.msg

variable {addr} {a : Addr} {heap heap' : List (MessageBufferNode α)} {front all : List α}

theorem Lined.perm (h : Lined addr a heap front all) (hp : heap'.Perm heap) :
    Lined addr a heap' front all := by
  obtain ⟨nodes, hsorted, hperm, hall⟩ := h
  exact ⟨nodes, hsorted, hperm.trans (hp.filter _).symm, hall⟩

/-- Nodes for other addresses do not matter. -/
theorem Lined.append_other {new : List (MessageBufferNode α)} (h : Lined addr a heap front all)
    (hnew : ∀ x ∈ new, addr x.msg ≠ a) : Lined addr a (heap ++ new) front all := by
  obtain ⟨nodes, hsorted, hperm, hall⟩ := h
  have hnil : new.filter (fun x => decide (addr x.msg = a)) = [] :=
    filter_eq_nil_iff.mpr (by simpa using hnew)
  refine ⟨nodes, hsorted, ?_, hall⟩
  rw [filter_append, hnil, append_nil]
  exact hperm

/-- A node behind all others for its address comes last. -/
theorem Lined.append_last {x : MessageBufferNode α} (h : Lined addr a heap front all)
    (hx : addr x.msg = a) (hlast : ∀ y ∈ heap, addr y.msg = a → y.key < x.key) :
    Lined addr a (heap ++ [x]) front (all ++ [x.msg]) := by
  obtain ⟨nodes, hsorted, hperm, hall⟩ := h
  refine ⟨nodes ++ [x], ?_, ?_, ?_⟩
  · refine pairwise_append.mpr ⟨hsorted, pairwise_singleton _ _, ?_⟩
    intro y hy z hz
    obtain rfl := mem_singleton.mp hz
    have hy' := mem_filter.mp (hperm.mem_iff.mp hy)
    exact hlast y hy'.1 (by simpa using hy'.2)
  · simpa [hx] using hperm.append_right [x]
  · rw [hall, map_append, append_assoc]
    rfl

/-- Stalled messages that come back before all others for their address. -/
theorem Lined.reinsert {new : List (MessageBufferNode α)}
    (h : Lined addr a heap (front ++ new.map MessageBufferNode.msg) all)
    (hnew : ∀ x ∈ new, addr x.msg = a) (hsorted : new.Pairwise fun x y => x.key < y.key)
    (hbefore : ∀ x ∈ new, ∀ y ∈ heap, addr y.msg = a → x.key < y.key) :
    Lined addr a (heap ++ new) front all := by
  obtain ⟨nodes, hnodes, hperm, hall⟩ := h
  refine ⟨new ++ nodes, ?_, ?_, ?_⟩
  · refine pairwise_append.mpr ⟨hsorted, hnodes, ?_⟩
    intro x hx y hy
    have hy' := mem_filter.mp (hperm.mem_iff.mp hy)
    exact hbefore x hx y hy'.1 (by simpa using hy'.2)
  · have hself : new.filter (fun x => decide (addr x.msg = a)) = new :=
      filter_eq_self.mpr (by simpa using hnew)
    rw [filter_append, hself]
    exact (perm_append_comm).trans (hperm.append_right new)
  · rw [hall, map_append, append_assoc]

/-- The least node is the first for its address. -/
theorem Lined.pop {x : MessageBufferNode α} (h : Lined addr a (x :: heap) front all)
    (hx : addr x.msg = a) (hleast : ∀ y ∈ heap, x.key ≤ y.key) :
    Lined addr a heap (front ++ [x.msg]) all := by
  obtain ⟨nodes, hsorted, hperm, hall⟩ := h
  rw [filter_cons_of_pos (by simpa using hx)] at hperm
  cases nodes with
  | nil => exact absurd hperm.length_eq (by simp)
  | cons y nodes =>
    -- `y` is first by key and `x` is least, so they are the same node
    have hyx : y = x := by
      rcases mem_cons.mp (hperm.mem_iff.mp mem_cons_self) with hyx | hy
      · exact hyx
      · have hxy : x.key ≤ y.key := hleast y (mem_of_mem_filter hy)
        rcases mem_cons.mp (hperm.mem_iff.mpr mem_cons_self) with hxy' | hx'
        · exact hxy'.symm
        · have := (pairwise_cons.mp hsorted).1 x hx'
          exact absurd hxy (not_le_of_gt this)
    subst hyx
    refine ⟨nodes, (pairwise_cons.mp hsorted).2, hperm.cons_inv, ?_⟩
    rw [hall, append_assoc]
    rfl

/-- The least node, if it is for another address, does not matter either. -/
theorem Lined.pop_other {x : MessageBufferNode α} (h : Lined addr a (x :: heap) front all)
    (hx : addr x.msg ≠ a) : Lined addr a heap front all := by
  obtain ⟨nodes, hsorted, hperm, hall⟩ := h
  rw [filter_cons_of_neg (by simpa using hx)] at hperm
  exact ⟨nodes, hsorted, hperm, hall⟩

end Lined

/-! ## What the operations do to the heap -/

namespace MessageBuffer

/-- The counter of the buffer is at least that of every node. -/
def Counted (b : MessageBuffer Addr α) : Prop := ∀ x ∈ b.prioHeap, x.msgCounter ≤ b.msgCounter

/-- One more node, with the next number. -/
theorem Counted.insert {b b' : MessageBuffer Addr α} {x : MessageBufferNode α} (h : b.Counted)
    (hperm : b'.prioHeap.Perm (b.prioHeap ++ [x])) (hx : x.msgCounter = b.msgCounter + 1)
    (hb : b'.msgCounter = b.msgCounter + 1) : b'.Counted := by
  intro y hy
  rcases mem_append.mp (hperm.mem_iff.mp hy) with hy | hy
  · have := h y hy
    omega
  · rw [mem_singleton.mp hy]
    omega

/-- `reanalyzeList` adds one node for every message, all at `nextTick`, in order. -/
theorem reanalyzeList_spec {nextTick : ℕ} (lt : List α) : ∀ {b : MessageBuffer Addr α},
    b.Heaped → b.Counted →
    ∃ new : List (MessageBufferNode α), new.map MessageBufferNode.msg = lt ∧
      new.Pairwise (fun x y => x.key < y.key) ∧
      (∀ x ∈ new, x.time = nextTick ∧ b.msgCounter < x.msgCounter) ∧
      (b.reanalyzeList nextTick lt).prioHeap.Perm (b.prioHeap ++ new) ∧
      (b.reanalyzeList nextTick lt).Heaped ∧ (b.reanalyzeList nextTick lt).Counted := by
  induction lt with
  | nil =>
    intro b hheap hcount
    exact ⟨[], rfl, List.Pairwise.nil, by simp, by simp [reanalyzeList], hheap, hcount⟩
  | cons m lt ih =>
    intro b hheap hcount
    obtain ⟨new, hmsg, hsorted, hnew, hp, hh, hc⟩ :=
      ih (hheap.requeue nextTick m) (hcount.insert (requeue_perm b nextTick m) rfl rfl)
    refine ⟨⟨nextTick, b.msgCounter + 1, m⟩ :: new, ?_, ?_, ?_, ?_, hh, hc⟩
    · rw [map_cons, hmsg]
    · refine pairwise_cons.mpr ⟨fun x hx => ?_, hsorted⟩
      obtain ⟨htime, hlt⟩ := hnew x hx
      exact Prod.Lex.lt_iff.mpr (.inr ⟨htime.symm, hlt⟩)
    · intro x hx
      rcases mem_cons.mp hx with rfl | hx
      · exact ⟨rfl, Nat.lt_succ_self _⟩
      · exact ⟨(hnew x hx).1, (Nat.lt_succ_self _).trans (hnew x hx).2⟩
    · refine hp.trans ?_
      have := (requeue_perm b nextTick m).append_right new
      simpa [append_assoc] using this

end MessageBuffer

/-! ## The invariant -/

variable [LinearOrder Addr] {addr : α → Addr} {delta : ℕ}

/-- What is enqueued is what was dequeued, what is stalled and what is queued, in this order. -/
structure Channel.Ordered (addr : α → Addr) (c : Channel Addr α) : Prop where
  heaped : c.buffer.Heaped
  counted : c.buffer.Counted
  sorted : StallSorted c.buffer.stallMsgMap
  filed : ∀ a, ∀ m ∈ stalledFor c.buffer.stallMsgMap a, addr m = a
  lined : ∀ a, Lined addr a c.buffer.prioHeap
    (forAddr addr a c.dequeued ++ stalledFor c.buffer.stallMsgMap a) (forAddr addr a c.enqueued)

theorem forAddr_append_singleton (a : Addr) (l : List α) (m : α) :
    forAddr addr a (l ++ [m]) = if addr m = a then forAddr addr a l ++ [m] else forAddr addr a l := by
  unfold forAddr
  split <;> rename_i h <;> simp [h]

theorem Channel.ordered_create (maxSize recycleLatency : ℕ) (strictFifo : Bool) :
    (Channel.create maxSize recycleLatency strictFifo : Channel Addr α).Ordered addr where
  heaped := by
    intro i x y hx
    simp [Channel.create, MessageBuffer.create] at hx
  counted := by
    intro x hx
    simp [Channel.create, MessageBuffer.create] at hx
  sorted := List.Pairwise.nil
  filed := by
    intro a m hm
    simp [Channel.create, MessageBuffer.create, stalledFor] at hm
  lined := by
    intro a
    exact ⟨[], List.Pairwise.nil, List.Perm.refl _, rfl⟩

section

variable {c : Channel Addr α} (h : c.Ordered addr)

include h

theorem Channel.Ordered.enqueue {sender : Sender} {m : α}
    {b : MessageBuffer Addr α} (hb : c.buffer.enqueue sender m delta false = .ok b)
    (hlast : ∀ x ∈ c.buffer.prioHeap, addr x.msg = addr m →
      x.time ≤ c.buffer.arrivalTime sender delta) :
    Channel.Ordered addr { c with buffer := b, enqueued := c.enqueued ++ [m] } := by
  have hheap := h.heaped.enqueue (by simp) hb
  unfold MessageBuffer.enqueue at hb
  split at hb
  · cases hb
  · cases hb
    have hperm := pushHeap_perm MessageBufferNode.key c.buffer.prioHeap
      ⟨c.buffer.arrivalTime sender delta, c.buffer.msgCounter + 1, m⟩
    refine ⟨hheap, h.counted.insert hperm rfl rfl, h.sorted, h.filed, fun a => ?_⟩
    refine Lined.perm ?_ hperm
    rw [forAddr_append_singleton]
    by_cases ha : addr m = a
    · rw [if_pos ha]
      refine (h.lined a).append_last ha fun y hy hya => ?_
      have htime := hlast y hy (hya.trans ha.symm)
      rcases lt_or_eq_of_le htime with hlt | heq
      · exact Prod.Lex.lt_iff.mpr (.inl hlt)
      · exact Prod.Lex.lt_iff.mpr (.inr ⟨heq, Nat.lt_succ_of_le (h.counted y hy)⟩)
    · rw [if_neg ha]
      exact (h.lined a).append_other (by simpa using ha)

section

variable {receiver : ClockedObject} {b : MessageBuffer Addr α}

/-- Taking the front out of the buffer. -/
theorem Channel.Ordered.pop (hb : c.buffer.dequeue receiver = .ok b) :
    ∃ x rest, c.buffer.prioHeap = x :: rest ∧ b.Heaped ∧ b.Counted ∧
      b.stallMsgMap = c.buffer.stallMsgMap ∧
      ∀ a, Lined addr a b.prioHeap
        (forAddr addr a c.dequeued ++ stalledFor c.buffer.stallMsgMap a ++
          if addr x.msg = a then [x.msg] else []) (forAddr addr a c.enqueued) := by
  obtain ⟨x, rest, hheap, hperm, hb', hstall, hcounter⟩ := h.heaped.dequeue hb
  have hleast : ∀ y ∈ rest, x.key ≤ y.key := fun y hy =>
    h.heaped.front_le (by simp [hheap]) y (by simp [hheap, hy])
  refine ⟨x, rest, hheap, hb', ?_, hstall, fun a => ?_⟩
  · intro y hy
    rw [hcounter]
    exact h.counted y (by simp [hheap, hperm.mem_iff.mp hy])
  · have hlined := h.lined a
    rw [hheap] at hlined
    by_cases ha : addr x.msg = a
    · rw [if_pos ha]
      exact (hlined.pop ha hleast).perm hperm
    · rw [if_neg ha, append_nil]
      exact (hlined.pop_other ha).perm hperm

theorem Channel.Ordered.dequeue {x : MessageBufferNode α}
    (hx : x ∈ c.buffer.prioHeap.head?) (hb : c.buffer.dequeue receiver = .ok b)
    (hstalled : stalledFor c.buffer.stallMsgMap (addr x.msg) = []) :
    Channel.Ordered addr { c with buffer := b, dequeued := c.dequeued ++ [x.msg] } := by
  obtain ⟨y, rest, hheap, hb', hcount, hmap, hlined⟩ := h.pop hb
  obtain rfl : y = x := by simpa [hheap] using hx
  refine ⟨hb', hcount, hmap ▸ h.sorted, hmap ▸ h.filed, fun a => ?_⟩
  have ha := hlined a
  rw [forAddr_append_singleton]
  show Lined addr a b.prioHeap (_ ++ stalledFor b.stallMsgMap a) _
  rw [hmap]
  by_cases hya : addr y.msg = a
  · subst hya
    rw [hstalled] at ha ⊢
    simpa using ha
  · simpa [hya] using ha

theorem Channel.Ordered.stall {x : MessageBufferNode α}
    (hx : x ∈ c.buffer.prioHeap.head?)
    (hb : c.buffer.stallMessage receiver (addr x.msg) = .ok b) :
    Channel.Ordered addr { c with buffer := b } := by
  obtain ⟨y, rest, d, hheap, hd, rfl⟩ := MessageBuffer.stallMessage_eq_ok hb
  obtain rfl : y = x := by simpa [hheap] using hx
  obtain ⟨z, rest', hheap', hd', hcount, hmap, hlined⟩ := h.pop hd
  obtain rfl : z = y := by
    rw [hheap] at hheap'
    exact (cons.inj hheap').1.symm
  have hstalled : ∀ a, stalledFor (pushStalled (addr z.msg) z.msg d.stallMsgMap) a =
      stalledFor c.buffer.stallMsgMap a ++ if addr z.msg = a then [z.msg] else [] := by
    intro a
    unfold stalledFor
    rw [hmap, lookup_pushStalled _ _ _ h.sorted]
    by_cases ha : a = addr z.msg
    · subst ha
      simp [stalledFor]
    · simp [ha, Ne.symm ha]
  refine ⟨hd', hcount, stallSorted_pushStalled (hmap ▸ h.sorted), fun a m hm => ?_, fun a => ?_⟩
  · rw [hstalled] at hm
    rcases mem_append.mp hm with hm | hm
    · exact h.filed a m hm
    · split at hm
      · rename_i ha
        rw [mem_singleton.mp hm, ha]
      · cases hm
  · rw [hstalled, ← append_assoc]
    exact hlined a

end

end

/-- The messages stalled for `k` come back before the queued ones. -/
theorem MessageBuffer.reanalyzeList_lined (front all : Addr → List α) (k : Addr) (lt : List α)
    {b : MessageBuffer Addr α} {nextTick : ℕ} (hheap : b.Heaped) (hcount : b.Counted)
    (hfiled : ∀ m ∈ lt, addr m = k)
    (hafter : ∀ x ∈ b.prioHeap, addr x.msg = k → nextTick < x.time)
    (hlined : ∀ a, Lined addr a b.prioHeap (front a ++ if a = k then lt else []) (all a)) :
    (b.reanalyzeList nextTick lt).Heaped ∧ (b.reanalyzeList nextTick lt).Counted ∧
      (∀ a, Lined addr a (b.reanalyzeList nextTick lt).prioHeap (front a) (all a)) ∧
      ∀ x ∈ (b.reanalyzeList nextTick lt).prioHeap, x ∈ b.prioHeap ∨ addr x.msg = k := by
  obtain ⟨new, rfl, hsorted, hnew, hperm, hh, hc⟩ := reanalyzeList_spec lt hheap hcount
  have haddr : ∀ x ∈ new, addr x.msg = k := fun x hx => hfiled _ (mem_map_of_mem hx)
  refine ⟨hh, hc, fun a => ?_, fun x hx => ?_⟩
  · refine Lined.perm ?_ hperm
    have ha := hlined a
    rcases eq_or_ne a k with rfl | hk
    · rw [if_pos rfl] at ha
      refine ha.reinsert haddr hsorted fun x hx y hy hya => ?_
      have hlt := hafter y hy hya
      rw [← (hnew x hx).1] at hlt
      exact Prod.Lex.lt_iff.mpr (.inl hlt)
    · rw [if_neg hk, append_nil] at ha
      exact ha.append_other fun x hx hxa => hk (hxa.symm.trans (haddr x hx))
  · rcases mem_append.mp (hperm.mem_iff.mp hx) with hx | hx
    · exact .inl hx
    · exact .inr (haddr x hx)

theorem Channel.Ordered.wake {c : Channel Addr α} (h : c.Ordered addr) {receiver : ClockedObject}
    {k : Addr} {b : MessageBuffer Addr α} (hb : c.buffer.reanalyzeMessages receiver k = .ok b)
    (hafter : ∀ x ∈ c.buffer.prioHeap, addr x.msg = k → receiver.edgeIn 1 < x.time) :
    Channel.Ordered addr { c with buffer := b } := by
  unfold MessageBuffer.reanalyzeMessages at hb
  split at hb
  · cases hb
  · rename_i lt hlt
    cases hb
    have hk : stalledFor c.buffer.stallMsgMap k = lt := by
      rw [stalledFor, hlt]
      rfl
    -- what is left in the map for every address
    have hleft : ∀ a, stalledFor (eraseAddr k c.buffer.stallMsgMap) a ++
        (if a = k then lt else []) = stalledFor c.buffer.stallMsgMap a := by
      intro a
      rcases eq_or_ne a k with rfl | ha
      · rw [if_pos rfl, hk, stalledFor, lookup_eraseAddr, if_pos rfl]
        rfl
      · rw [if_neg ha, append_nil, stalledFor, lookup_eraseAddr, if_neg ha]
        rfl
    obtain ⟨hh, hc, hl, -⟩ := MessageBuffer.reanalyzeList_lined
      (fun a => forAddr addr a c.dequeued ++ stalledFor (eraseAddr k c.buffer.stallMsgMap) a)
      (fun a => forAddr addr a c.enqueued) k lt h.heaped h.counted (hk ▸ h.filed k) hafter (by
        intro a
        simp only [append_assoc, hleft]
        exact h.lined a)
    refine ⟨hh, hc, h.sorted.filter _, fun a m hm => ?_, hl⟩
    rw [stalledFor, lookup_eraseAddr] at hm
    split at hm
    · cases hm
    · exact h.filed a m hm

/-- All entries of the map, one after the other. -/
theorem MessageBuffer.reanalyzeAll_lined {nextTick : ℕ} (front all : Addr → List α)
    (es : List (Addr × List α)) : ∀ {b : MessageBuffer Addr α}, b.Heaped → b.Counted →
      StallSorted es → (∀ a, ∀ m ∈ stalledFor es a, addr m = a) →
      (∀ x ∈ b.prioHeap, es.lookup (addr x.msg) ≠ none → nextTick < x.time) →
      (∀ a, Lined addr a b.prioHeap (front a ++ stalledFor es a) (all a)) →
      (es.foldl (fun b e => b.reanalyzeList nextTick e.2) b).Heaped ∧
      (es.foldl (fun b e => b.reanalyzeList nextTick e.2) b).Counted ∧
      ∀ a, Lined addr a (es.foldl (fun b e => b.reanalyzeList nextTick e.2) b).prioHeap (front a)
        (all a) := by
  induction es with
  | nil =>
    intro b hheap hcount _ _ _ hlined
    refine ⟨hheap, hcount, fun a => ?_⟩
    have := hlined a
    rwa [stalledFor, lookup_nil, Option.getD_none, append_nil] at this
  | cons e es ih =>
    obtain ⟨k, lt⟩ := e
    intro b hheap hcount hsorted hfiled hafter hlined
    obtain ⟨hk, hes⟩ := pairwise_cons.mp hsorted
    have hnone : es.lookup k = none := lookup_eq_none_of_lt hk
    have hsplit : ∀ a, stalledFor ((k, lt) :: es) a = stalledFor es a ++ if a = k then lt else [] := by
      intro a
      unfold stalledFor
      rw [lookup_cons_addr]
      rcases eq_or_ne a k with rfl | ha
      · simp [hnone]
      · simp [ha]
    obtain ⟨hh, hc, hl, hmem⟩ := reanalyzeList_lined
      (fun a => front a ++ stalledFor es a) all k lt hheap hcount (by
        intro m hm
        exact hfiled k m (by rw [hsplit]; simp [hm])) (by
        intro x hx hxk
        exact hafter x hx (by rw [hxk]; simp)) (by
        intro a
        rw [append_assoc, ← hsplit]
        exact hlined a)
    refine ih hh hc hes (fun a m hm => hfiled a m (by rw [hsplit]; simp [hm])) ?_ hl
    intro x hx hxe
    rcases hmem x hx with hx | hxk
    · refine hafter x hx ?_
      rw [lookup_cons_addr]
      split
      · simp
      · exact hxe
    · rw [hxk] at hxe
      exact absurd hnone hxe

/-- **One step keeps the order.** -/
theorem Channel.Ordered.step {c c' : Channel Addr α} (h : c.Ordered addr) {op : ChannelOp Addr α}
    (hok : c.KeepsOrder addr delta op) (hc : c.step addr delta op = .ok c') : c'.Ordered addr := by
  have hfront : ∀ {receiver x}, c.front receiver = .ok x → x ∈ c.buffer.prioHeap.head? := by
    intro receiver x hx
    unfold Channel.front at hx
    split at hx
    · cases hx
    · rename_i y rest hheap
      split at hx
      · simpa [hheap] using Except.ok.inj hx
      · cases hx
  cases op with
  | enqueue sender m isRMWWrite =>
    obtain ⟨rfl, hlast⟩ := hok
    obtain ⟨b, hb, rfl⟩ := Except.bind_pure_eq_ok hc
    exact h.enqueue hb hlast
  | dequeue receiver =>
    obtain ⟨x, hx, hc⟩ := Except.bind_eq_ok hc
    obtain ⟨b, hb, rfl⟩ := Except.bind_pure_eq_ok hc
    exact h.dequeue (hfront hx) hb (hok x (hfront hx))
  | stall receiver =>
    obtain ⟨x, hx, hc⟩ := Except.bind_eq_ok hc
    obtain ⟨b, hb, rfl⟩ := Except.bind_pure_eq_ok hc
    exact h.stall (hfront hx) hb
  | wake receiver a =>
    obtain ⟨b, hb, rfl⟩ := Except.bind_pure_eq_ok hc
    exact h.wake hb hok
  | wakeAll receiver =>
    cases hc
    obtain ⟨hh, hcount, hl⟩ := MessageBuffer.reanalyzeAll_lined
      (fun a => forAddr addr a c.dequeued) (fun a => forAddr addr a c.enqueued) c.buffer.stallMsgMap h.heaped h.counted h.sorted h.filed hok h.lined
    refine ⟨hh, hcount, List.Pairwise.nil, fun a m hm => ?_, fun a => ?_⟩
    · cases hm
    · show Lined addr a _ (_ ++ []) _
      rw [append_nil]
      exact hl a

/-- **Messages for one address leave in the order in which they came**, in every run whose steps
keep the order. -/
theorem per_address_fifo {maxSize recycleLatency : ℕ} {strictFifo : Bool}
    {ops : List (ChannelOp Addr α)} {c : Channel Addr α}
    (h : Runs (Within (Channel.step addr delta) (Channel.KeepsOrder addr delta))
      (Channel.create maxSize recycleLatency strictFifo) ops c) (a : Addr) :
    forAddr addr a c.dequeued <+: forAddr addr a c.enqueued := by
  have hordered : c.Ordered addr :=
    h.invariant (fun s op t hs ht => hs.step ht.1 ht.2) (Channel.ordered_create _ _ _)
  obtain ⟨nodes, -, -, hall⟩ := hordered.lined a
  rw [hall, append_assoc]
  exact prefix_append _ _

instance (c : Channel Addr α) : (op : ChannelOp Addr α) → Decidable (c.KeepsOrder addr delta op)
  | .enqueue _ _ _ => inferInstanceAs (Decidable (_ ∧ _))
  | .dequeue _ | .wake _ _ | .wakeAll _ => inferInstanceAs (Decidable (∀ _ ∈ _, _))
  | .stall _ => inferInstanceAs (Decidable True)

theorem per_address_fifo_stalled_twice :
    ∃ c : Channel ℕ ℕ, Runs (Within (Channel.step (fun _ => 0) 1) (Channel.KeepsOrder (fun _ => 0) 1))
      (Channel.create 0 1 false)
      [.enqueue (.tick 0) 1 false, .enqueue (.tick 0) 2 false, .stall (.tick 1), .stall (.tick 1),
        .wake (.tick 1) 0, .dequeue (.tick 2), .dequeue (.tick 2)] c ∧
      forAddr (fun _ => 0) 0 c.dequeued <+: forAddr (fun _ => 0) 0 c.enqueued := by
  refine exists_runs_imp_of_execWithin (P := fun _ => True) (by decide +kernel) ?_
  intro c hc _
  exact per_address_fifo hc 0

/-- Message 1 is stalled when it arrives and woken one cycle later, when message 2 has already
arrived: its new time and its new counter put it behind message 2. -/
theorem stalled_message_overtaken :
    ∃ c : Channel ℕ ℕ, Runs (Within (Channel.step (fun _ => 0) 1) Anytime)
      (Channel.create 0 1 false)
      [.enqueue (.tick 0) 1 false, .stall (.tick 1), .enqueue (.tick 1) 2 false,
        .wake (.tick 2) 0, .dequeue (.tick 2), .dequeue (.tick 3)] c ∧
      c.enqueued = [1, 2] ∧ c.dequeued = [2, 1] :=
  exists_runs_of_execWithin (by decide +kernel)
