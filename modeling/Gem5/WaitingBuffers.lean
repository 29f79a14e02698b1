/-
# The waiting table of a controller

`AbstractController` records in `m_waiting_buffers` which input buffers hold
stalled messages: for every address a vector with one slot for every in_port,
indexed by the rank of the in_port being served (`m_cur_in_port`, which
`printCWakeup` sets to the declared rank).  A `stall_and_wait` action records
the buffer (`stallBuffer`) and sets its front aside (`stallMessage`).

A message is woken only through this table, so a buffer with stalled messages
that is missing from it is orphaned.  Two in_ports of equal rank share a slot,
and `wakeUpBuffers` erases the whole vector although it visits the lower ranks
only: `Controller.Safe` says when neither happens.

The order in which the buffers of different addresses are visited does not
matter, so the table is kept in the order of insertion.
-/
import Mathlib.Data.Fin.VecNotation
import Gem5.MessageBuffer

open Function

/-! ## The controller -/

/-- A controller with `k` in_ports: their buffers and the waiting table.  A pointer to a buffer is
the number of its in_port. -/
structure Controller (k : ℕ) (Addr α : Type) where
  buffers : Fin k → MessageBuffer Addr α
  waitingBuffers : List (Addr × (Fin k → Option (Fin k))) := []

/-- Calls made while an in_port is served, and the traffic of the buffers. -/
inductive ControllerOp (k : ℕ) (Addr α : Type)
  | enqueue (port : Fin k) (sender : Sender) (message : α) (delta : ℕ)
  | dequeue (port : Fin k) (receiver : ClockedObject)
  | stallAndWait (port : Fin k) (receiver : ClockedObject) (addr : Addr)
  | wakeUpBuffers (port : Fin k) (receiver : ClockedObject) (addr : Addr)
  | wakeUpAllBuffersOf (receiver : ClockedObject) (addr : Addr)
  | wakeUpAllBuffers (receiver : ClockedObject)

namespace Controller

variable {k : ℕ} {Addr α : Type} [LinearOrder Addr] (rank : Fin k → Fin k)

variable (c : Controller k Addr α)

/-- Replace the buffer of an in_port. -/
def setBuffer (q : Fin k) (b : MessageBuffer Addr α) :
    Controller k Addr α :=
  { c with buffers := Function.update c.buffers q b }

/-- `stallBuffer(buf, addr)` with `m_cur_in_port` the rank of the port. -/
def stallBuffer (port : Fin k) (addr : Addr) : Controller k Addr α :=
  let slots := (c.waitingBuffers.lookup addr).getD fun _ => none
  { c with waitingBuffers :=
      (addr, Function.update slots (rank port) (some port)) ::
        eraseAddr addr c.waitingBuffers }

/-- `reanalyzeMessages(addr)` on the buffers recorded in the given slots. -/
def reanalyzeSlots (receiver : ClockedObject) (addr : Addr) (slots : Fin k → Option (Fin k)) :
    List (Fin k) → Controller k Addr α → Except Abort (Controller k Addr α)
  | [], c => .ok c
  | i :: is, c =>
    match slots i with
    | none => reanalyzeSlots receiver addr slots is c
    | some q => do
      let b ← (c.buffers q).reanalyzeMessages receiver addr
      reanalyzeSlots receiver addr slots is (c.setBuffer q b)

/-- The loops of `wakeUpBuffers` and `wakeUpAllBuffers(addr)` over the ranks below `top`. -/
def wakeUpBelow (receiver : ClockedObject) (addr : Addr) (top : ℕ) :
    Except Abort (Controller k Addr α) :=
  match c.waitingBuffers.lookup addr with
  | none => .ok c
  | some slots => do
    let c ← reanalyzeSlots receiver addr slots
      ((List.finRange k).reverse.filter fun i => decide (i.val < top)) c
    pure { c with waitingBuffers := eraseAddr addr c.waitingBuffers }

/-- Some vector of the table has the buffer. -/
def IsWaiting (q : Fin k) : Prop :=
  ∃ e ∈ c.waitingBuffers, ∃ i, e.2 i = some q

instance (c : Controller k Addr α) (q : Fin k) : Decidable (c.IsWaiting q) :=
  inferInstanceAs (Decidable (∃ e ∈ c.waitingBuffers, ∃ i, e.2 i = some q))

/-- `wakeUpAllBuffers()`: `reanalyzeAllMessages` on every buffer of the table, which is then
cleared.  A second visit to a buffer finds nothing. -/
def wakeUpAll (receiver : ClockedObject) : Controller k Addr α where
  buffers := fun q =>
    if c.IsWaiting q then (c.buffers q).reanalyzeAllMessages receiver else c.buffers q
  waitingBuffers := []

def step : ControllerOp k Addr α → Except Abort (Controller k Addr α)
  | .enqueue port sender message delta => do
    let b ← (c.buffers port).enqueue sender message delta false
    pure (c.setBuffer port b)
  | .dequeue port receiver => do
    let b ← (c.buffers port).dequeue receiver
    pure (c.setBuffer port b)
  | .stallAndWait port receiver addr => do
    let b ← (c.buffers port).stallMessage receiver addr
    pure ((c.stallBuffer rank port addr).setBuffer port b)
  | .wakeUpBuffers port receiver addr => c.wakeUpBelow receiver addr (rank port).val
  | .wakeUpAllBuffersOf receiver addr => c.wakeUpBelow receiver addr k
  | .wakeUpAllBuffers receiver => .ok (c.wakeUpAll receiver)

/-- A controller before its first message. -/
def create (maxSize recycleLatency : ℕ) (strictFifo randomization : Bool) : Controller k Addr α where
  buffers := fun _ => MessageBuffer.create maxSize recycleLatency strictFifo randomization

/-! ## Recorded and orphaned buffers -/

/-- The table has the buffer of `q` for the address. -/
def Records (addr : Addr) (q : Fin k) : Prop :=
  ∃ slots ∈ c.waitingBuffers.lookup addr, ∃ i, slots i = some q

/-- **No buffer is orphaned**: whenever a buffer has stalled messages for an address, the table
has it for that address. -/
def Recorded : Prop :=
  ∀ q addr, (c.buffers q).stallMsgMap.lookup addr ≠ none → c.Records addr q

/-- The calls that keep every record: a port stalls into a slot that is free or already its own,
and `wakeUpBuffers` is called from a port above all recorded ones. -/
def Safe : ControllerOp k Addr α → Prop
  | .stallAndWait port _ addr => ∀ slots ∈ c.waitingBuffers.lookup addr,
    ∀ q ∈ slots (rank port), q = port
  | .wakeUpBuffers port _ addr => ∀ slots ∈ c.waitingBuffers.lookup addr,
    ∀ i, slots i ≠ none → i < rank port
  | _ => True

variable {rank} {c c' : Controller k Addr α}

/-- Every slot holds a buffer of its own rank that has messages for the address. -/
structure Consistent (rank : Fin k → Fin k) (c : Controller k Addr α) : Prop where
  sorted : ∀ q, StallSorted (c.buffers q).stallMsgMap
  slot : ∀ addr slots, c.waitingBuffers.lookup addr = some slots → ∀ i q, slots i = some q →
    i = rank q ∧ (c.buffers q).stallMsgMap.lookup addr ≠ none

/-! ## One step -/

omit [LinearOrder Addr] in
/-- Traffic that leaves the stall maps alone. -/
theorem lookup_setBuffer {q : Fin k} {b : MessageBuffer Addr α}
    (hb : b.stallMsgMap = (c.buffers q).stallMsgMap) (p : Fin k) :
    ((c.setBuffer q b).buffers p).stallMsgMap = (c.buffers p).stallMsgMap := by
  unfold setBuffer
  rcases eq_or_ne p q with rfl | hp
  · simpa using hb
  · simp [hp]

/-- The states differ in what `Consistent` and `Recorded` do not see. -/
structure SameStalls (c c' : Controller k Addr α) : Prop where
  maps : ∀ q, (c'.buffers q).stallMsgMap = (c.buffers q).stallMsgMap
  table : c'.waitingBuffers = c.waitingBuffers

theorem SameStalls.consistent (h : SameStalls c c') (hc : c.Consistent rank) :
    c'.Consistent rank where
  sorted := fun q => h.maps q ▸ hc.sorted q
  slot := by
    intro addr slots hs i q hi
    rw [h.table] at hs
    rw [h.maps q]
    exact hc.slot addr slots hs i q hi

theorem SameStalls.recorded (h : SameStalls c c') (hc : c.Recorded) : c'.Recorded := by
  intro q addr hq
  rw [h.maps q] at hq
  unfold Records
  rw [h.table]
  exact hc q addr hq

variable {receiver : ClockedObject} {addr : Addr} {top : ℕ} {port : Fin k}
  {op : ControllerOp k Addr α}

/-- The loop over the slots erases the lists of the buffers it visits. -/
theorem reanalyzeSlots_spec {slots : Fin k → Option (Fin k)} (is : List (Fin k)) : ∀
    {c c' : Controller k Addr α},
    reanalyzeSlots receiver addr slots is c = .ok c' →
    c'.waitingBuffers = c.waitingBuffers ∧
      (∀ q, StallSorted (c.buffers q).stallMsgMap → StallSorted (c'.buffers q).stallMsgMap) ∧
      ∀ q a, (c'.buffers q).stallMsgMap.lookup a =
        if a = addr ∧ ∃ i ∈ is, slots i = some q then none
        else (c.buffers q).stallMsgMap.lookup a := by
  induction is with
  | nil =>
    intro c c' h
    cases h
    exact ⟨rfl, fun q hq => hq, fun q a => by simp⟩
  | cons i is ih =>
    intro c c' h
    unfold reanalyzeSlots at h
    split at h
    · rename_i hi
      obtain ⟨htable, hsorted, hlookup⟩ := ih h
      refine ⟨htable, hsorted, fun q a => ?_⟩
      rw [hlookup]
      simp [hi]
    · rename_i p hi
      obtain ⟨b, hb, h⟩ := Except.bind_eq_ok h
      obtain ⟨htable, hsorted, hlookup⟩ := ih h
      have hmap := MessageBuffer.reanalyzeMessages_stallMsgMap hb
      refine ⟨htable, fun q hq => hsorted q ?_, fun q a => ?_⟩
      · rcases eq_or_ne q p with rfl | hqp
        · simp only [setBuffer, update_self, hmap]
          exact hq.filter _
        · simpa [setBuffer, hqp] using hq
      · rw [hlookup]
        rcases eq_or_ne q p with rfl | hqp
        · simp only [setBuffer, update_self, hmap, lookup_eraseAddr]
          by_cases ha : a = addr
          · simp [ha, hi]
          · simp [ha]
        · have hne : some p ≠ some q := fun hpq => hqp (Option.some.inj hpq).symm
          simp [setBuffer, hqp, hi, hne]

/-- What a wake-up of the ranks below `top` does. -/
theorem wakeUpBelow_spec {slots : Fin k → Option (Fin k)}
    (hslots : c.waitingBuffers.lookup addr = some slots)
    (h : c.wakeUpBelow receiver addr top = .ok c') :
    c'.waitingBuffers = eraseAddr addr c.waitingBuffers ∧
      (∀ q, StallSorted (c.buffers q).stallMsgMap → StallSorted (c'.buffers q).stallMsgMap) ∧
      ∀ q a, (c'.buffers q).stallMsgMap.lookup a =
        if a = addr ∧ ∃ i : Fin k, i.val < top ∧ slots i = some q then none
        else (c.buffers q).stallMsgMap.lookup a := by
  unfold wakeUpBelow at h
  rw [hslots] at h
  obtain ⟨d, hd, rfl⟩ := Except.bind_pure_eq_ok h
  obtain ⟨htable, hsorted, hlookup⟩ := reanalyzeSlots_spec _ hd
  refine ⟨by rw [htable], hsorted, fun q a => ?_⟩
  rw [hlookup]
  simp

/-- The table after `stallBuffer`. -/
theorem lookup_stallBuffer (port : Fin k) (addr a : Addr) :
    (c.stallBuffer rank port addr).waitingBuffers.lookup a =
      if a = addr then
        some (update ((c.waitingBuffers.lookup addr).getD fun _ => none) (rank port)
          (some port))
      else c.waitingBuffers.lookup a := by
  unfold stallBuffer
  rw [lookup_cons_addr, lookup_eraseAddr]
  split
  · rfl
  · rfl

/-- A stalled message: its buffer has a list for the address, the other lists stay. -/
theorem stallAndWait_spec (hsorted : ∀ q, StallSorted (c.buffers q).stallMsgMap)
    (h : c.step rank (.stallAndWait port receiver addr) = .ok c') :
    c'.waitingBuffers = (c.stallBuffer rank port addr).waitingBuffers ∧
      (∀ q, StallSorted (c'.buffers q).stallMsgMap) ∧
      ∀ q a, (c'.buffers q).stallMsgMap.lookup a ≠ none ↔
        (q = port ∧ a = addr) ∨ (c.buffers q).stallMsgMap.lookup a ≠ none := by
  obtain ⟨b, hb, rfl⟩ := Except.bind_pure_eq_ok h
  obtain ⟨m, hm⟩ := MessageBuffer.stallMessage_stallMsgMap hb
  refine ⟨rfl, ?_, ?_⟩
  · intro q
    rcases eq_or_ne q port with rfl | hqp
    · simp only [setBuffer, update_self, hm]
      exact stallSorted_pushStalled (hsorted q)
    · simpa [setBuffer, stallBuffer, hqp] using hsorted q
  · intro q a
    rcases eq_or_ne q port with rfl | hqp
    · simp only [setBuffer, update_self, hm]
      rw [lookup_pushStalled addr m _ (hsorted q)]
      by_cases ha : a = addr
      · simp [ha]
      · simp [ha]
    · simp [setBuffer, stallBuffer, hqp]

/-- The calls that move messages through a buffer. -/
theorem sameStalls_of_traffic (h : c.step rank op = .ok c')
    (hop : (∃ port sender m delta, op = .enqueue port sender m delta) ∨
      ∃ port receiver, op = .dequeue port receiver) : SameStalls c c' := by
  rcases hop with ⟨port, sender, m, delta, rfl⟩ | ⟨port, receiver, rfl⟩
  · obtain ⟨b, hb, rfl⟩ := Except.bind_pure_eq_ok h
    exact ⟨lookup_setBuffer (MessageBuffer.enqueue_stallMsgMap hb), rfl⟩
  · obtain ⟨b, hb, rfl⟩ := Except.bind_pure_eq_ok h
    exact ⟨lookup_setBuffer (MessageBuffer.dequeue_stallMsgMap hb), rfl⟩

/-! ## Every step keeps the slots -/

theorem Consistent.stallAndWait (hc : c.Consistent rank)
    (h : c.step rank (.stallAndWait port receiver addr) = .ok c') :
    c'.Consistent rank := by
  obtain ⟨htable, hsorted, hlookup⟩ := stallAndWait_spec hc.sorted h
  refine ⟨hsorted, ?_⟩
  intro a slots hslots i q hi
  rw [htable, lookup_stallBuffer] at hslots
  rw [hlookup]
  rcases eq_or_ne a addr with rfl | ha
  · rw [if_pos rfl] at hslots
    cases hslots
    by_cases hir : i = rank port
    · subst hir
      rw [update_self] at hi
      cases hi
      exact ⟨rfl, .inl ⟨rfl, rfl⟩⟩
    · rw [update_of_ne hir] at hi
      cases hold : c.waitingBuffers.lookup a with
      | none =>
        rw [hold] at hi
        cases hi
      | some old =>
        rw [hold] at hi
        obtain ⟨hrank, hmap⟩ := hc.slot a old hold i q hi
        exact ⟨hrank, .inr hmap⟩
  · rw [if_neg ha] at hslots
    obtain ⟨hrank, hmap⟩ := hc.slot a slots hslots i q hi
    exact ⟨hrank, .inr hmap⟩

theorem Consistent.wakeUpBelow (hc : c.Consistent rank)
    (h : c.wakeUpBelow receiver addr top = .ok c') : c'.Consistent rank := by
  cases hold : c.waitingBuffers.lookup addr with
  | none =>
    unfold Controller.wakeUpBelow at h
    rw [hold] at h
    cases h
    exact hc
  | some old =>
    obtain ⟨htable, hsorted, hlookup⟩ := wakeUpBelow_spec hold h
    refine ⟨fun q => hsorted q (hc.sorted q), ?_⟩
    intro a slots hslots i q hi
    rw [htable, lookup_eraseAddr] at hslots
    split at hslots
    · cases hslots
    · rename_i ha
      rw [hlookup, if_neg fun hx => ha hx.1]
      exact hc.slot a slots hslots i q hi

theorem Consistent.wakeUpAll (hc : c.Consistent rank) (receiver : ClockedObject) :
    (c.wakeUpAll receiver).Consistent rank where
  sorted := by
    intro q
    show StallSorted (if c.IsWaiting q then _ else _ : MessageBuffer Addr α).stallMsgMap
    split
    · exact List.Pairwise.nil
    · exact hc.sorted q
  slot := by
    intro addr slots hslots
    cases hslots

theorem Consistent.step (hc : c.Consistent rank) (h : c.step rank op = .ok c') :
    c'.Consistent rank := by
  cases op with
  | enqueue port sender message delta =>
    exact (sameStalls_of_traffic h (.inl ⟨_, _, _, _, rfl⟩)).consistent hc
  | dequeue port receiver => exact (sameStalls_of_traffic h (.inr ⟨_, _, rfl⟩)).consistent hc
  | stallAndWait port receiver addr => exact hc.stallAndWait h
  | wakeUpBuffers port receiver addr => exact hc.wakeUpBelow h
  | wakeUpAllBuffersOf receiver addr => exact hc.wakeUpBelow h
  | wakeUpAllBuffers receiver =>
    cases h
    exact hc.wakeUpAll receiver

/-! ## Which steps keep the records -/

theorem recorded_stallAndWait_iff (hc : c.Consistent rank) (hr : c.Recorded)
    (h : c.step rank (.stallAndWait port receiver addr) = .ok c') :
    c'.Recorded ↔ ∀ slots ∈ c.waitingBuffers.lookup addr, ∀ q ∈ slots (rank port), q = port := by
  obtain ⟨htable, -, hlookup⟩ := stallAndWait_spec hc.sorted h
  constructor
  · -- the buffer that was in the slot is still recorded, and has no other slot
    intro hr' slots hslots q hq
    obtain ⟨hrank, hmap⟩ := hc.slot addr slots hslots _ q hq
    obtain ⟨new, hnew, i, hi⟩ := hr' q addr ((hlookup q addr).mpr (.inr hmap))
    rw [htable, lookup_stallBuffer, if_pos rfl, hslots] at hnew
    cases hnew
    by_cases hir : i = rank port
    · subst hir
      rw [update_self] at hi
      exact (Option.some.inj hi).symm
    · rw [update_of_ne hir] at hi
      exact absurd ((hc.slot addr slots hslots i q hi).1.trans hrank.symm) hir
  · intro hsafe q a hq
    unfold Records
    rw [htable, lookup_stallBuffer]
    rcases eq_or_ne a addr with rfl | ha
    · rw [if_pos rfl]
      refine ⟨_, rfl, ?_⟩
      rcases (hlookup q a).mp hq with ⟨rfl, -⟩ | hold
      · exact ⟨rank q, update_self _ _ _⟩
      · obtain ⟨slots, hslots, i, hi⟩ := hr q a hold
        rw [hslots]
        by_cases hir : i = rank port
        · subst hir
          obtain rfl := hsafe slots hslots q hi
          exact ⟨rank q, update_self _ _ _⟩
        · exact ⟨i, (update_of_ne hir _ _).trans hi⟩
    · rw [if_neg ha]
      rcases (hlookup q a).mp hq with ⟨-, rfl⟩ | hold
      · exact absurd rfl ha
      · exact hr q a hold

theorem recorded_wakeUpBelow_iff (hc : c.Consistent rank) (hr : c.Recorded)
    (h : c.wakeUpBelow receiver addr top = .ok c') :
    c'.Recorded ↔ ∀ slots ∈ c.waitingBuffers.lookup addr, ∀ i : Fin k, slots i ≠ none →
      i.val < top := by
  cases hold : c.waitingBuffers.lookup addr with
  | none =>
    unfold wakeUpBelow at h
    rw [hold] at h
    cases h
    simpa using hr
  | some old =>
    obtain ⟨htable, -, hlookup⟩ := wakeUpBelow_spec hold h
    constructor
    · -- a buffer in a slot that is not visited keeps its list and loses the record
      rintro hr' slots hslots i hi
      cases hslots
      obtain ⟨q, hq⟩ := Option.ne_none_iff_exists'.mp hi
      obtain ⟨hrank, hmap⟩ := hc.slot addr old hold i q hq
      by_contra htop
      have hkept : (c'.buffers q).stallMsgMap.lookup addr ≠ none := by
        rw [hlookup, if_neg]
        · exact hmap
        · rintro ⟨-, j, hj, hjq⟩
          rw [(hc.slot addr old hold j q hjq).1, ← hrank] at hj
          exact htop hj
      obtain ⟨slots, hslots, -⟩ := hr' q addr hkept
      rw [htable, lookup_eraseAddr, if_pos rfl] at hslots
      cases hslots
    · intro hbelow q a hq
      unfold Records
      rw [hlookup] at hq
      rw [htable, lookup_eraseAddr]
      rcases eq_or_ne a addr with rfl | ha
      · split at hq
        · exact absurd rfl hq
        · rename_i hnot
          obtain ⟨slots, hslots, i, hi⟩ := hr q a hq
          rw [hold] at hslots
          cases hslots
          exact absurd ⟨rfl, i, hbelow old rfl i (by simp [hi]), hi⟩ hnot
      · rw [if_neg fun hx => ha hx.1] at hq
        rw [if_neg ha]
        exact hr q a hq

/-- With all records in place `wakeUpAllBuffers()` reaches every buffer that has a list. -/
theorem Recorded.stallMsgMap_eq_nil (hr : c.Recorded) {q : Fin k} (hq : ¬ c.IsWaiting q) :
    (c.buffers q).stallMsgMap = [] := by
  cases hmap : (c.buffers q).stallMsgMap with
  | nil => rfl
  | cons e rest =>
    have hhead : (c.buffers q).stallMsgMap.lookup e.1 ≠ none := by
      rw [hmap]
      simp [List.lookup]
    obtain ⟨slots, hslots, i, hi⟩ := hr q e.1 hhead
    obtain ⟨l₁, l₂, htable, -⟩ := List.lookup_eq_some_iff.mp hslots
    exact absurd ⟨(e.1, slots), by rw [htable]; simp, i, hi⟩ hq

theorem Recorded.wakeUpAll (hr : c.Recorded) (receiver : ClockedObject) :
    (c.wakeUpAll receiver).Recorded := by
  intro q addr hq
  exfalso
  apply hq
  show (if c.IsWaiting q then _ else _ : MessageBuffer Addr α).stallMsgMap.lookup addr = none
  split
  · rfl
  · rename_i hwait
    rw [hr.stallMsgMap_eq_nil hwait]
    rfl

/-- Exactly the safe calls keep every record. -/
theorem recorded_step_iff (hc : c.Consistent rank) (hr : c.Recorded) (h : c.step rank op = .ok c') :
    c'.Recorded ↔ c.Safe rank op := by
  cases op with
  | enqueue port sender message delta =>
    exact iff_of_true ((sameStalls_of_traffic h (.inl ⟨_, _, _, _, rfl⟩)).recorded hr) trivial
  | dequeue port receiver =>
    exact iff_of_true ((sameStalls_of_traffic h (.inr ⟨_, _, rfl⟩)).recorded hr) trivial
  | stallAndWait port receiver addr => exact recorded_stallAndWait_iff hc hr h
  | wakeUpBuffers port receiver addr => exact recorded_wakeUpBelow_iff hc hr h
  | wakeUpAllBuffersOf receiver addr =>
    refine iff_of_true ((recorded_wakeUpBelow_iff hc hr h).mpr ?_) trivial
    exact fun _ _ i _ => i.isLt
  | wakeUpAllBuffers receiver =>
    cases h
    exact iff_of_true (hr.wakeUpAll receiver) trivial

/-! ## Whole runs -/

/-- Every record is in place, and `wakeUpAllBuffers()` would put every stalled message back into
its heap. -/
structure NoneOrphaned (c : Controller k Addr α) : Prop where
  recorded : c.Recorded
  woken : ∀ receiver q, (((c.wakeUpAll receiver).buffers q).prioHeap.map MessageBufferNode.msg).Perm
    ((c.buffers q).prioHeap.map MessageBufferNode.msg ++ (c.buffers q).stallMsgMap.flatMap Prod.snd)

theorem Recorded.noneOrphaned (hr : c.Recorded) : c.NoneOrphaned where
  recorded := hr
  woken := by
    intro receiver q
    show ((if c.IsWaiting q then _ else _ : MessageBuffer Addr α).prioHeap.map _).Perm _
    split
    · exact MessageBuffer.reanalyzeAllMessages_msgs _ _
    · rename_i hwait
      rw [hr.stallMsgMap_eq_nil hwait]
      simp

end Controller

/-- **Stalled messages.**  The runs from a fresh controller in which no message is ever orphaned
are exactly those that stall into free slots and wake from above. -/
theorem none_orphaned_iff_safe {k : ℕ} {Addr α : Type} [LinearOrder Addr] (rank : Fin k → Fin k)
    (maxSize recycleLatency : ℕ) (strictFifo randomization : Bool)
    (ops : List (ControllerOp k Addr α)) (c : Controller k Addr α) :
    Runs (fun c op c' => c.step rank op = .ok c' ∧ c'.NoneOrphaned)
        (.create maxSize recycleLatency strictFifo randomization) ops c ↔
      Runs (Within (Controller.step rank) (Controller.Safe rank))
        (.create maxSize recycleLatency strictFifo randomization) ops c := by
  -- along either kind of run the slots are consistent and every record is in place
  refine Runs.congr_of_invariant (P := fun c => c.Consistent rank ∧ c.Recorded) ?_ ?_ ?_
  · rintro c op c' ⟨hc, hr⟩
    constructor
    · rintro ⟨hstep, hnone⟩
      exact ⟨(Controller.recorded_step_iff hc hr hstep).mp hnone.recorded, hstep⟩
    · rintro ⟨hsafe, hstep⟩
      exact ⟨hstep, ((Controller.recorded_step_iff hc hr hstep).mpr hsafe).noneOrphaned⟩
  · rintro c op c' ⟨hc, -⟩ ⟨hstep, hnone⟩
    exact ⟨hc.step hstep, hnone.recorded⟩
  · refine ⟨⟨fun q => List.Pairwise.nil, ?_⟩, ?_⟩
    · intro addr slots hslots
      cases hslots
    · intro q addr hq
      exact absurd rfl hq

/-- The ranks of the directory's in_ports: the two request networks, the responses and the
memory queue. -/
def dirRanks : Fin 4 → Fin 4 := ![0, 0, 1, 2]

/-- Requests for line 7 stalled on the two request networks of the directory share slot 0, so the
first is never woken again; and a `wakeUpBuffers` from a request network drops the record of the
message stalled there. -/
theorem stalled_message_orphaned :
    (∃ c, Runs (Within (Controller.step dirRanks) Anytime) (.create 0 1 true false)
        [.enqueue 0 (.tick 0) 'a' 1, .enqueue 1 (.tick 0) 'b' 1,
          .stallAndWait 0 (.tick 1) 7, .stallAndWait 1 (.tick 1) 7,
          .wakeUpAllBuffers (.tick 2)] c ∧
        (c.buffers 0).stallMsgMap = [(7, ['a'])] ∧ c.waitingBuffers.lookup (7 : ℕ) = none) ∧
    ∃ c, Runs (Within (Controller.step dirRanks) Anytime) (.create 0 1 true false)
        [.enqueue 0 (.tick 0) 'a' 1, .stallAndWait 0 (.tick 1) 7, .wakeUpBuffers 1 (.tick 2) 7] c ∧
        (c.buffers 0).stallMsgMap = [(7, ['a'])] ∧ c.waitingBuffers.lookup (7 : ℕ) = none := by
  constructor
  · exact exists_runs_of_execWithin (by decide +kernel)
  · exact exists_runs_of_execWithin (by decide +kernel)
