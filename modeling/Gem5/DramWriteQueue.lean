/-
# The DRAM write queue

`DRAMCtrl::addToWriteQueue` (`src/mem/dram_ctrl.cc`).  A packet is split at the burst
boundaries, and each burst is merged into the first entry of the queue that it
overlaps or touches, if together they are not longer than a burst.  A merge changes the
range of the entry and not its location, which was decoded when the entry was made.

Not longer than a burst does not mean in one burst: two halves that touch at a
boundary are merged, and so are the two bursts of a packet in the middle of which
there is a boundary (`write_merged_across_bursts`).  The sums of addresses are also not
exact in the last burst before the end of the address space, nor is the number of bursts
for a packet of almost 4 GB.

An entry carries, as a ghost, the number of the burst window in which it was made, and the
system the bytes that were accepted and not yet sent.

* `mergeInto`         — one entry and one burst; the four cases of the loop.
* `Bounded`           — an entry that lies in its window.
* `Clear`             — what the entries must not do at the boundaries inside a packet.
-/
import Mathlib
import Gem5.TransitionSystem
import Gem5.DramDecode

open List

/-! ## The queue -/

/-- A `DRAMPacket` of the write queue, and the window it was made for. -/
structure WriteEntry where
  addr : ℕ
  size : ℕ
  loc : DramLoc
  window : ℕ
  deriving DecidableEq

def WriteEntry.Covers (e : WriteEntry) (x : ℕ) : Prop := e.addr ≤ x ∧ x < e.addr + e.size

structure WriteParams extends DecodeParams where
  writeBufferSize : ℕ

/-- The sum of addresses. -/
def add64 (a b : ℕ) : ℕ := (a + b) % 2 ^ 64

def sub64 (a b : ℕ) : ℕ := (a + 2 ^ 64 - b) % 2 ^ 64

namespace WriteParams

variable (p : WriteParams)

/-- The aligned address after the burst. -/
def nextBurst (addr : ℕ) : ℕ := add64 (addr ||| (p.burstSize - 1)) 1

/-- The size of the burst at an address of a packet with the given end. -/
def burstLength (addr stop : ℕ) : ℕ := sub64 (min (p.nextBurst addr) stop) addr % 2 ^ 32

/-- The entry after a merge with the burst, if there is one. -/
def mergeInto (addr size : ℕ) (w : WriteEntry) : Option WriteEntry :=
  if addr ≤ w.addr then
    if add64 w.addr w.size ≤ add64 addr size then
      some { w with addr, size }
    else if w.addr ≤ add64 addr size ∧ sub64 (add64 w.addr w.size) addr ≤ p.burstSize then
      some { w with addr, size := sub64 (add64 w.addr w.size) addr % 2 ^ 32 }
    else none
  else
    if add64 addr size ≤ add64 w.addr w.size then
      some w
    else if addr ≤ add64 w.addr w.size ∧ sub64 (add64 addr size) w.addr ≤ p.burstSize then
      some { w with size := sub64 (add64 addr size) w.addr % 2 ^ 32 }
    else none

/-- The first entry that merges is changed. -/
def mergeFirst (addr size : ℕ) : List WriteEntry → Option (List WriteEntry)
  | [] => none
  | w :: queue =>
    match p.mergeInto addr size w with
    | some w' => some (w' :: queue)
    | none => (w :: ·) <$> mergeFirst addr size queue

/-- One round of the loop. -/
def addBurst (queue : List WriteEntry) (addr size : ℕ) : Except Abort (List WriteEntry) :=
  match p.mergeFirst addr size queue with
  | some queue => .ok queue
  | none => do
    let loc ← p.decodeAddr (BitVec.ofNat 64 addr)
    if queue.length < p.writeBufferSize then
      return queue ++ [{ addr, size, loc, window := addr / p.burstSize }]
    else .error .assertion

def addToWriteQueue (stop : ℕ) : ℕ → ℕ → List WriteEntry → Except Abort (List WriteEntry)
  | 0, _, queue => .ok queue
  | pktCount + 1, addr, queue => do
    let queue ← p.addBurst queue addr (p.burstLength addr stop)
    addToWriteQueue stop pktCount (p.nextBurst addr) queue

/-- `divCeil(offset + size, burstSize)`, in 32 bits. -/
def pktCount (addr size : ℕ) : ℕ :=
  let offset := addr &&& (p.burstSize - 1)
  ((offset + size) % 2 ^ 32 + p.burstSize + (2 ^ 32 - 1)) % 2 ^ 32 / p.burstSize

def writeQueueFull (queue : List WriteEntry) (neededEntries : ℕ) : Bool :=
  p.writeBufferSize < queue.length + neededEntries

end WriteParams

/-! ## The system -/

/-- Where an entry touches the range from `addr` to `stop` at a burst boundary, and where there is
such a boundary inside the range, both sides together are longer than a burst. -/
structure Clear (burstSize addr stop : ℕ) (queue : List WriteEntry) : Prop where
  inside : (addr / burstSize + 1) * burstSize < stop → addr + burstSize < stop
  before : ∀ w ∈ queue, (w.addr + w.size) % burstSize = 0 → addr ≤ w.addr + w.size →
    w.addr + w.size < stop → w.addr + burstSize < stop
  after : ∀ w ∈ queue, w.addr % burstSize = 0 → addr < w.addr → w.addr ≤ stop →
    addr + burstSize < w.addr + w.size

/-- The sums are exact, and the boundaries are clear. -/
structure ClearWrite (p : WriteParams) (queue : List WriteEntry) (addr size : ℕ) : Prop where
  stop_le : addr + size + p.burstSize ≤ 2 ^ 64
  count_le : addr % p.burstSize + size + p.burstSize ≤ 2 ^ 32
  clear : Clear p.burstSize addr (addr + size) queue

instance (b addr stop : ℕ) (queue : List WriteEntry) : Decidable (Clear b addr stop queue) :=
  decidable_of_iff (((addr / b + 1) * b < stop → addr + b < stop) ∧
    (∀ w ∈ queue, (w.addr + w.size) % b = 0 → addr ≤ w.addr + w.size →
      w.addr + w.size < stop → w.addr + b < stop) ∧
    ∀ w ∈ queue, w.addr % b = 0 → addr < w.addr → w.addr ≤ stop → addr + b < w.addr + w.size)
    ⟨fun h => ⟨h.1, h.2.1, h.2.2⟩, fun h => ⟨h.inside, h.before, h.after⟩⟩

instance (p : WriteParams) (queue : List WriteEntry) (addr size : ℕ) :
    Decidable (ClearWrite p queue addr size) :=
  decidable_of_iff (addr + size + p.burstSize ≤ 2 ^ 64 ∧
    addr % p.burstSize + size + p.burstSize ≤ 2 ^ 32 ∧
    Clear p.burstSize addr (addr + size) queue)
    ⟨fun h => ⟨h.1, h.2.1, h.2.2⟩, fun h => ⟨h.stop_le, h.count_le, h.clear⟩⟩

/-- A write packet arrives, or the entry at a place of the queue is sent. -/
inductive WriteOp
  | write (addr : BitVec 64) (size : BitVec 32)
  | send (place : ℕ)

/-- The queue, and the bytes that were accepted since they were last sent. -/
structure WriteSystem (p : WriteParams) where
  queue : List WriteEntry := []
  pending : ℕ → Prop := fun _ => False

namespace WriteSystem

variable {p : WriteParams}

/-- `recvTimingReq` for a write, and `processNextReqEvent` for the entry it chooses. -/
def step (s : WriteSystem p) : WriteOp → Except Abort (WriteSystem p)
  | .write addr size => do
    let addr := addr.toNat
    let size := size.toNat
    if size = 0 then .error .assertion
    else if p.writeQueueFull s.queue (p.pktCount addr size) then .ok s
    else
      let queue ← p.addToWriteQueue (add64 addr size) (p.pktCount addr size) addr s.queue
      return { queue, pending := fun x => s.pending x ∨ addr ≤ x ∧ x < addr + size }
  | .send place =>
    match s.queue[place]? with
    | none => .error .undefined
    | some e => .ok
        { queue := s.queue.eraseIdx place
          pending := fun x => s.pending x ∧ ¬ e.Covers x }

def Proper (s : WriteSystem p) : WriteOp → Prop
  | .write addr size => ClearWrite p s.queue addr.toNat size.toNat
  | .send _ => True

instance (s : WriteSystem p) (op : WriteOp) : Decidable (s.Proper op) := by
  unfold Proper
  split <;> infer_instance

end WriteSystem

/-! ## Exact sums -/

theorem add64_eq {a b : ℕ} (h : a + b < 2 ^ 64) : add64 a b = a + b := Nat.mod_eq_of_lt h

theorem sub64_eq {a b : ℕ} (hb : b ≤ a) (ha : a < 2 ^ 64) : sub64 a b = a - b := by
  unfold sub64
  omega

theorem or_two_pow_sub_one (a k : ℕ) : a ||| (2 ^ k - 1) = a / 2 ^ k * 2 ^ k + (2 ^ k - 1) := by
  have hlt : 2 ^ k - 1 < 2 ^ k := Nat.sub_lt (Nat.two_pow_pos k) one_pos
  apply Nat.eq_of_testBit_eq
  intro j
  rw [mul_comm, Nat.testBit_two_pow_mul_add _ hlt, Nat.testBit_or, Nat.testBit_two_pow_sub_one,
    Nat.testBit_div_two_pow]
  split
  · rename_i hj
    simp [hj]
  · rename_i hj
    rw [decide_eq_false hj, Bool.or_false, Nat.sub_add_cancel (not_lt.mp hj)]

namespace WriteParams

variable {p : WriteParams} (hB : ∃ k, p.burstSize = 2 ^ k) {a stop : ℕ}

include hB in
theorem nextBurst_eq (ha : a + p.burstSize < 2 ^ 64) :
    p.nextBurst a = a / p.burstSize * p.burstSize + p.burstSize := by
  obtain ⟨k, hk⟩ := hB
  have hpos := Nat.two_pow_pos k
  have hle := Nat.div_mul_le_self a (2 ^ k)
  rw [hk] at ha
  rw [nextBurst, hk, or_two_pow_sub_one, add64_eq (by omega)]
  omega

include hB in
theorem burstLength_eq (ha : a < stop) (hstop : stop + p.burstSize ≤ 2 ^ 64) :
    p.burstLength a stop = min (a / p.burstSize * p.burstSize + p.burstSize) stop - a := by
  have hpos := pos_of_two_pow hB
  have hlt := Nat.lt_div_mul_add hpos (a := a)
  have hle := Nat.div_mul_le_self a p.burstSize
  have hfits := p.fits.1
  rw [burstLength, nextBurst_eq hB (by omega), sub64_eq (by omega) (by omega),
    Nat.mod_eq_of_lt (by omega)]

include hB in
/-- The bursts reach the end of the packet, and the last one does not go beyond it. -/
theorem pktCount_eq {size : ℕ} (hle : a % p.burstSize + size + p.burstSize ≤ 2 ^ 32) :
    a + size ≤ a / p.burstSize * p.burstSize + p.pktCount a size * p.burstSize ∧
      a / p.burstSize * p.burstSize + p.pktCount a size * p.burstSize < a + size + p.burstSize := by
  have hpos := pos_of_two_pow hB
  have hoffset : a &&& (p.burstSize - 1) = a % p.burstSize := by
    obtain ⟨k, hk⟩ := hB
    rw [hk, Nat.and_two_pow_sub_one_eq_mod]
  have hcount : p.pktCount a size =
      (a % p.burstSize + size + p.burstSize - 1) / p.burstSize := by
    have hexact : ((a % p.burstSize + size) % 2 ^ 32 + p.burstSize + (2 ^ 32 - 1)) % 2 ^ 32 =
        a % p.burstSize + size + p.burstSize - 1 := by omega
    rw [pktCount, hoffset, hexact]
  have hdiv := Nat.div_mul_le_self (a % p.burstSize + size + p.burstSize - 1) p.burstSize
  have hlt := Nat.lt_div_mul_add hpos (a := a % p.burstSize + size + p.burstSize - 1)
  have hmod := Nat.div_add_mod' a p.burstSize
  rw [hcount]
  omega

end WriteParams

/-! ## One burst -/

/-- An entry lies in its window, which is not the last one. -/
structure Bounded (b : ℕ) (e : WriteEntry) : Prop where
  size_pos : 0 < e.size
  le_addr : e.window * b ≤ e.addr
  stop_le : e.addr + e.size ≤ e.window * b + b
  window_lt : e.window * b + b < 2 ^ 64

/-- The part of the range from `addr` to `stop` that lies in the window of `addr`. -/
structure IsBurst (b addr stop size window : ℕ) : Prop where
  le_addr : window * b ≤ addr
  addr_lt : addr < window * b + b
  size_pos : 0 < size
  stop_eq : addr + size = min (window * b + b) stop
  window_lt : window * b + b < 2 ^ 64

namespace WriteParams

variable {p : WriteParams} {a n stop k : ℕ} {w w' : WriteEntry}

theorem mul_add_le_of_lt {i j b : ℕ} (h : i < j) : i * b + b ≤ j * b := by
  rw [← Nat.succ_mul]
  exact Nat.mul_le_mul_right b h

/-- An entry that merges is in the window of the burst. -/
theorem window_eq_of_mergeInto (hw : Bounded p.burstSize w) (hb : IsBurst p.burstSize a stop n k)
    (hclear : Clear p.burstSize a stop [w]) (h : p.mergeInto a n w = some w') : w.window = k := by
  obtain ⟨hsize, hle, hstop, hwin⟩ := hw
  obtain ⟨hka, hak, hn, heq, hk⟩ := hb
  have hbefore := hclear.before w mem_cons_self
  have hafter := hclear.after w mem_cons_self
  rw [mergeInto, add64_eq (by omega), add64_eq (by omega)] at h
  rcases lt_trichotomy w.window k with hlt | heqw | hgt
  · have hgap := mul_add_le_of_lt (b := p.burstSize) hlt
    rw [if_neg (by omega), if_neg (by omega), sub64_eq (by omega) (by omega)] at h
    split at h
    · have hboundary : w.addr + w.size = k * p.burstSize := by omega
      have := hbefore (by rw [hboundary, Nat.mul_mod_left]) (by omega) (by omega)
      omega
    · cases h
  · exact heqw
  · have hgap := mul_add_le_of_lt (b := p.burstSize) hgt
    rw [if_pos (by omega), if_neg (by omega), sub64_eq (by omega) (by omega)] at h
    split at h
    · have hboundary : w.addr = w.window * p.burstSize := by omega
      have := hafter (by rw [hboundary, Nat.mul_mod_left]) (by omega) (by omega)
      omega
    · cases h

/-- After a merge the entry is the union. -/
theorem mergeInto_eq (hw : Bounded p.burstSize w) (hb : IsBurst p.burstSize a stop n w.window)
    (h : p.mergeInto a n w = some w') :
    w'.addr = min a w.addr ∧ w'.addr + w'.size = max (a + n) (w.addr + w.size) ∧
      w'.window = w.window ∧ w'.loc = w.loc := by
  obtain ⟨hsize, hle, hstop, hwin⟩ := hw
  obtain ⟨hka, hak, hn, heq, hk⟩ := hb
  have hfits := p.fits.1
  rw [mergeInto, add64_eq (by omega), add64_eq (by omega)] at h
  split at h
  · split at h
    · cases h
      exact ⟨by dsimp only; omega, by dsimp only; omega, rfl, rfl⟩
    · split at h
      · cases h
        rw [sub64_eq (by omega) (by omega)]
        exact ⟨by dsimp only; omega, by dsimp only; omega, rfl, rfl⟩
      · cases h
  · split at h
    · cases h
      exact ⟨by omega, by omega, rfl, rfl⟩
    · split at h
      · cases h
        rw [sub64_eq (by omega) (by omega)]
        exact ⟨by dsimp only; omega, by dsimp only; omega, rfl, rfl⟩
      · cases h

end WriteParams

/-- An entry lies in its window and has the location of it. -/
structure Placed (p : WriteParams) (e : WriteEntry) : Prop where
  bounded : Bounded p.burstSize e
  decoded : p.decodeAddr (BitVec.ofNat 64 (e.window * p.burstSize)) = .ok e.loc

/-- What a burst does to the queue: every entry stays in its place, one that is not an old one has
the burst in it, and nothing that was covered is lost. -/
structure TakesIn (p : WriteParams) (a n k : ℕ) (queue queue' : List WriteEntry) : Prop where
  placed : ∀ e ∈ queue', Placed p e
  old_or_new : ∀ e ∈ queue', e ∈ queue ∨ e.addr ≤ a ∧ e.window = k
  covers : ∀ e ∈ queue, ∃ e' ∈ queue', ∀ x, e.Covers x → e'.Covers x
  burst : ∃ e ∈ queue', ∀ x, a ≤ x → x < a + n → e.Covers x

section OneBurst

open WriteParams

variable {p : WriteParams} {a n stop k : ℕ} {queue queue' : List WriteEntry}

theorem Clear.subset {b : ℕ} (h : Clear b a stop queue) (hsub : queue' ⊆ queue) :
    Clear b a stop queue' :=
  ⟨h.inside, fun w hw => h.before w (hsub hw), fun w hw => h.after w (hsub hw)⟩

/-- The entry that the burst is merged into is the union of both, in the same window. -/
theorem TakesIn.mergeInto {w w' : WriteEntry} (hw : Placed p w) (hqueue : ∀ e ∈ queue, Placed p e)
    (hb : IsBurst p.burstSize a stop n k) (hclear : Clear p.burstSize a stop [w])
    (h : p.mergeInto a n w = some w') : TakesIn p a n k (w :: queue) (w' :: queue) := by
  have hk := window_eq_of_mergeInto hw.bounded hb hclear h
  subst hk
  obtain ⟨haddr, hstop, hwindow, hloc⟩ := mergeInto_eq hw.bounded hb h
  obtain ⟨hsize, hle, hle', hlt⟩ := hw.bounded
  have hw' : Placed p w' := by
    refine ⟨⟨?_, ?_, ?_, ?_⟩, ?_⟩
    · omega
    · rw [hwindow, haddr]
      exact le_min hb.le_addr hle
    · rw [hwindow, hstop, hb.stop_eq]
      exact max_le (min_le_left _ _) hle'
    · rw [hwindow]
      exact hlt
    · rw [hwindow, hloc]
      exact hw.decoded
  constructor
  · intro e he
    rcases mem_cons.mp he with rfl | he
    · exact hw'
    · exact hqueue e he
  · intro e he
    rcases mem_cons.mp he with rfl | he
    · exact .inr ⟨by omega, hwindow⟩
    · exact .inl (mem_cons_of_mem _ he)
  · intro e he
    rcases mem_cons.mp he with rfl | he
    · refine ⟨w', mem_cons_self, ?_⟩
      rintro x ⟨hx, hx'⟩
      exact ⟨by omega, by omega⟩
    · exact ⟨e, mem_cons_of_mem _ he, fun x hx => hx⟩
  · refine ⟨w', mem_cons_self, ?_⟩
    intro x hx hx'
    exact ⟨by omega, by omega⟩

theorem TakesIn.cons {w : WriteEntry} (hw : Placed p w) (h : TakesIn p a n k queue queue') :
    TakesIn p a n k (w :: queue) (w :: queue') := by
  constructor
  · intro e he
    rcases mem_cons.mp he with rfl | he
    · exact hw
    · exact h.placed e he
  · intro e he
    rcases mem_cons.mp he with rfl | he
    · exact .inl mem_cons_self
    · exact (h.old_or_new e he).imp_left (mem_cons_of_mem _)
  · intro e he
    rcases mem_cons.mp he with rfl | he
    · exact ⟨e, mem_cons_self, fun x hx => hx⟩
    · obtain ⟨e', he', hcovers⟩ := h.covers e he
      exact ⟨e', mem_cons_of_mem _ he', hcovers⟩
  · obtain ⟨e, he, hcovers⟩ := h.burst
    exact ⟨e, mem_cons_of_mem _ he, hcovers⟩

theorem TakesIn.mergeFirst (hqueue : ∀ e ∈ queue, Placed p e)
    (hb : IsBurst p.burstSize a stop n k) (hclear : Clear p.burstSize a stop queue)
    (h : p.mergeFirst a n queue = some queue') : TakesIn p a n k queue queue' := by
  induction queue generalizing queue' with
  | nil => cases h
  | cons w queue ih =>
    have hw := hqueue w mem_cons_self
    have hrest := fun e he => hqueue e (mem_cons_of_mem _ he)
    rw [WriteParams.mergeFirst] at h
    split at h
    · rename_i w' hmerge
      cases h
      refine .mergeInto hw hrest hb (hclear.subset ?_) hmerge
      exact cons_subset_cons _ (nil_subset _)
    · obtain ⟨rest, hrest', rfl⟩ := Option.map_eq_some_iff.mp h
      exact (ih hrest (hclear.subset (subset_cons_self _ _)) hrest').cons hw

theorem TakesIn.push {loc : DramLoc} (hqueue : ∀ e ∈ queue, Placed p e)
    (hb : IsBurst p.burstSize a stop n k) (hloc : p.decodeAddr (BitVec.ofNat 64 a) = .ok loc) :
    TakesIn p a n k queue
      (queue ++ [{ addr := a, size := n, loc, window := a / p.burstSize }]) := by
  obtain ⟨hle, hlt, hsize, heq, hwin⟩ := hb
  have hk : a / p.burstSize = k := by
    apply Nat.div_eq_of_lt_le hle
    rw [Nat.succ_mul]
    exact hlt
  subst hk
  have hnew : Placed p { addr := a, size := n, loc, window := a / p.burstSize } := by
    refine ⟨⟨hsize, hle, by dsimp only; omega, hwin⟩, ?_⟩
    rw [← hloc]
    apply p.decodeAddr_congr
    rw [BitVec.toNat_ofNat, BitVec.toNat_ofNat, Nat.mod_eq_of_lt (by dsimp only; omega),
      Nat.mod_eq_of_lt (by omega)]
    exact Nat.mul_div_cancel _ (by omega)
  constructor
  · intro e he
    rcases mem_append.mp he with he | he
    · exact hqueue e he
    · obtain rfl := mem_singleton.mp he
      exact hnew
  · intro e he
    rcases mem_append.mp he with he | he
    · exact .inl he
    · obtain rfl := mem_singleton.mp he
      exact .inr ⟨le_rfl, rfl⟩
  · intro e he
    exact ⟨e, mem_append_left _ he, fun x hx => hx⟩
  · exact ⟨_, mem_append_right _ mem_cons_self, fun x hx hx' => ⟨hx, hx'⟩⟩

/-- One round of the loop. -/
theorem TakesIn.addBurst (hqueue : ∀ e ∈ queue, Placed p e)
    (hb : IsBurst p.burstSize a stop n k) (hclear : Clear p.burstSize a stop queue)
    (h : p.addBurst queue a n = .ok queue') : TakesIn p a n k queue queue' := by
  rw [WriteParams.addBurst] at h
  split at h
  · rename_i q hmerge
    cases h
    exact .mergeFirst hqueue hb hclear hmerge
  · obtain ⟨loc, hloc, h⟩ := Except.bind_eq_ok h
    split at h
    · cases h
      exact .push hqueue hb hloc
    · cases h

end OneBurst

/-! ## A packet -/

section Packet

open WriteParams

variable {p : WriteParams} (hB : ∃ k, p.burstSize = 2 ^ k) {stop : ℕ}

include hB in
theorem isBurst {a : ℕ} (ha : a < stop) (hstop : stop + p.burstSize ≤ 2 ^ 64) :
    IsBurst p.burstSize a stop (p.burstLength a stop) (a / p.burstSize) := by
  have hle := Nat.div_mul_le_self a p.burstSize
  have hlt := Nat.lt_div_mul_add (pos_of_two_pow hB) (a := a)
  have hlength := burstLength_eq hB ha hstop
  exact ⟨hle, hlt, by omega, by omega, by omega⟩

include hB in
/-- What is clear for a packet is clear for the rest of it, when its first burst is in the queue. -/
theorem Clear.next {a n : ℕ} {queue queue' : List WriteEntry}
    (h : Clear p.burstSize a stop queue)
    (htake : TakesIn p a n (a / p.burstSize) queue queue') :
    Clear p.burstSize (a / p.burstSize * p.burstSize + p.burstSize) stop queue' := by
  have hpos := pos_of_two_pow hB
  have hlt := Nat.lt_div_mul_add hpos (a := a)
  constructor
  · rw [← Nat.succ_mul, Nat.mul_div_cancel _ hpos, Nat.succ_mul]
    exact id
  · intro w hw hboundary hle hstop
    rcases htake.old_or_new w hw with hold | ⟨haddr, hwindow⟩
    · exact h.before w hold hboundary (by omega) hstop
    · have hwend := (htake.placed w hw).bounded.stop_le
      rw [hwindow] at hwend
      have hinside := h.inside
      rw [Nat.succ_mul] at hinside
      have := hinside (by omega)
      omega
  · intro w hw hboundary hlt' _
    obtain ⟨m, hm⟩ := Nat.dvd_of_mod_eq_zero hboundary
    rw [mul_comm] at hm
    have hsize := (htake.placed w hw).bounded.size_pos
    rw [hm, ← Nat.succ_mul] at hlt'
    have hgap := mul_add_le_of_lt (b := p.burstSize) (Nat.lt_of_mul_lt_mul_right hlt')
    rw [Nat.succ_mul] at hgap
    omega

include hB in
/-- The loop: all entries stay in their places, nothing that was covered is lost, and the rest of
the packet is covered.  The induction is on the number of bursts. -/
theorem addToWriteQueue_placed (hstop : stop + p.burstSize ≤ 2 ^ 64) (count : ℕ) :
    ∀ {a : ℕ} {queue queue' : List WriteEntry}, (∀ e ∈ queue, Placed p e) →
      Clear p.burstSize a stop queue →
      stop ≤ a / p.burstSize * p.burstSize + count * p.burstSize →
      (count = 0 ∨ a < stop ∧
        a / p.burstSize * p.burstSize + count * p.burstSize < stop + p.burstSize) →
      p.addToWriteQueue stop count a queue = .ok queue' →
      (∀ e ∈ queue', Placed p e) ∧
        (∀ e ∈ queue, ∃ e' ∈ queue', ∀ x, e.Covers x → e'.Covers x) ∧
        ∀ x, a ≤ x → x < stop → ∃ e ∈ queue', e.Covers x := by
  induction count with
  | zero =>
    intro a queue queue' hqueue _ hle _ h
    cases h
    refine ⟨hqueue, fun e he => ⟨e, he, fun x hx => hx⟩, ?_⟩
    intro x hax hx
    have := Nat.div_mul_le_self a p.burstSize
    omega
  | succ count ih =>
    intro a queue queue' hqueue hclear hle hlast h
    obtain ⟨ha, hlast⟩ := hlast.resolve_left (Nat.succ_ne_zero count)
    obtain ⟨queue₁, h₁, h⟩ := Except.bind_eq_ok h
    have hpos := pos_of_two_pow hB
    have hb := isBurst hB ha hstop
    have htake := TakesIn.addBurst hqueue hb hclear h₁
    rw [nextBurst_eq hB (by omega)] at h
    rw [Nat.succ_mul] at hle hlast
    have hnext : (a / p.burstSize * p.burstSize + p.burstSize) / p.burstSize * p.burstSize =
        a / p.burstSize * p.burstSize + p.burstSize := by
      rw [← Nat.succ_mul, Nat.mul_div_cancel _ hpos]
    obtain ⟨hplaced, hcovers, hrest⟩ := ih htake.placed (hclear.next hB htake)
      (by rw [hnext]; omega)
      (by
        rw [hnext]
        rcases eq_zero_or_pos count with hzero | hcount
        · exact .inl hzero
        · have := Nat.le_mul_of_pos_left p.burstSize hcount
          exact .inr ⟨by omega, by omega⟩) h
    refine ⟨hplaced, ?_, ?_⟩
    · intro e he
      obtain ⟨e₁, he₁, hcov₁⟩ := htake.covers e he
      obtain ⟨e₂, he₂, hcov₂⟩ := hcovers e₁ he₁
      exact ⟨e₂, he₂, fun x hx => hcov₂ x (hcov₁ x hx)⟩
    · intro x hax hx
      by_cases hin : x < a + p.burstLength a stop
      · obtain ⟨e₁, he₁, hcov₁⟩ := htake.burst
        obtain ⟨e₂, he₂, hcov₂⟩ := hcovers e₁ he₁
        exact ⟨e₂, he₂, hcov₂ x (hcov₁ x hax hin)⟩
      · have := hb.stop_eq
        exact hrest x (by omega) hx

end Packet

/-! ## Runs -/

namespace WriteSystem

variable {p : WriteParams} {s t : WriteSystem p}

/-- Every entry lies in one window, and has the location that any byte of it decodes to. -/
def InWindow (p : WriteParams) (e : WriteEntry) : Prop :=
  ∀ x, e.Covers x → x / p.burstSize = e.window ∧ p.decodeAddr (BitVec.ofNat 64 x) = .ok e.loc

/-- The invariant: all entries are in place and cover what is pending. -/
structure Sound (s : WriteSystem p) : Prop where
  placed : ∀ e ∈ s.queue, Placed p e
  covered : ∀ x, s.pending x → ∃ e ∈ s.queue, e.Covers x

theorem inWindow_of_placed (hB : ∃ k, p.burstSize = 2 ^ k) {e : WriteEntry} (h : Placed p e) :
    InWindow p e := by
  rintro x ⟨hle, hlt⟩
  obtain ⟨⟨hsize, hwin, hstop, hmax⟩, hdec⟩ := h
  have hx : x / p.burstSize = e.window := by
    apply Nat.div_eq_of_lt_le (by omega)
    rw [Nat.succ_mul]
    omega
  refine ⟨hx, ?_⟩
  rw [← hdec]
  apply p.decodeAddr_congr
  rw [BitVec.toNat_ofNat, BitVec.toNat_ofNat, Nat.mod_eq_of_lt (by omega),
    Nat.mod_eq_of_lt (by omega), hx, Nat.mul_div_cancel _ (pos_of_two_pow hB)]

theorem Sound.step (hB : ∃ k, p.burstSize = 2 ^ k) (h : s.Sound) {op : WriteOp}
    (hop : s.Proper op) (hstep : s.step op = .ok t) : t.Sound := by
  match op with
  | .write addr size =>
    rw [WriteSystem.step] at hstep
    split at hstep
    · cases hstep
    split at hstep
    · cases hstep
      exact h
    obtain ⟨queue, hqueue, rfl⟩ := Except.bind_pure_eq_ok hstep
    have hproper : ClearWrite p s.queue addr.toNat size.toNat := hop
    have hstop := hproper.stop_le
    obtain ⟨hle, hlast⟩ := WriteParams.pktCount_eq hB hproper.count_le
    rw [add64_eq (by omega)] at hqueue
    obtain ⟨hplaced, hcovers, hrest⟩ := addToWriteQueue_placed hB hstop _ h.placed hproper.clear
      hle (.inr ⟨by omega, hlast⟩) hqueue
    refine ⟨hplaced, ?_⟩
    rintro x (hx | ⟨hx, hx'⟩)
    · obtain ⟨e, he, hcov⟩ := h.covered x hx
      obtain ⟨e', he', hcov'⟩ := hcovers e he
      exact ⟨e', he', hcov' x hcov⟩
    · exact hrest x hx hx'
  | .send place =>
    rw [WriteSystem.step] at hstep
    split at hstep
    · cases hstep
    · rename_i e he
      cases hstep
      refine ⟨fun e' he' => h.placed e' (mem_of_mem_eraseIdx he'), ?_⟩
      rintro x ⟨hx, hnot⟩
      obtain ⟨e', he', hcov⟩ := h.covered x hx
      obtain ⟨i, hi⟩ := mem_iff_getElem?.mp he'
      refine ⟨e', mem_eraseIdx_iff_getElem?.mpr ⟨i, ?_, hi⟩, hcov⟩
      rintro rfl
      rw [he] at hi
      exact hnot (Option.some.inj hi ▸ hcov)

/-- **The write queue keeps what it accepts** in every run of proper writes: every byte that was
accepted and not sent since is covered by an entry, and every entry lies in the burst window in
which it was made, whose location it has. -/
theorem write_queue_covers (hB : ∃ k, p.burstSize = 2 ^ k) {ops : List WriteOp}
    (h : Runs (Within step Proper) {} ops s) :
    (∀ x, s.pending x → ∃ e ∈ s.queue, e.Covers x) ∧ ∀ e ∈ s.queue, InWindow p e := by
  have hs : s.Sound := by
    refine h.invariant ?_ ⟨fun e he => absurd he not_mem_nil, fun x hx => hx.elim⟩
    rintro s op t hs ⟨hop, hstep⟩
    exact hs.step hB hop hstep
  exact ⟨hs.covered, fun e he => inWindow_of_placed hB (hs.placed e he)⟩

end WriteSystem

/-- The controller with two channels, and a write queue of four entries. -/
def hashedPairWrites : WriteParams := { hashedPair with writeBufferSize := 4 }

namespace WriteSystem

/-- A packet of two bursts, then a part of the second one again, and the first entry is sent. -/
theorem write_queue_covers_two_bursts :
    ∃ s : WriteSystem hashedPairWrites, Runs (Within step Proper) {}
        [.write 0x80000090 0x60, .write 0x800000c0 0x20, .send 0] s ∧
      s.queue.length = 1 ∧ ∀ e ∈ s.queue, InWindow hashedPairWrites e := by
  refine exists_runs_and_of_execWithin (by decide +kernel) ?_
  intro s hrun _
  exact (write_queue_covers ⟨6, rfl⟩ hrun).2

/-- A packet of 64 bytes with a burst boundary in the middle becomes one entry, which has the
location of the first burst and a byte of the second. -/
theorem write_merged_across_bursts :
    ∃ s : WriteSystem hashedPairWrites, Runs (Within step Anytime) {} [.write 0x800000a0 0x40] s ∧
      ∃ e ∈ s.queue, ¬ InWindow hashedPairWrites e := by
  refine exists_runs_imp_of_execWithin (P := fun s => ∃ e ∈ s.queue, e.addr ≤ 0x800000c0 ∧
    0x800000c0 < e.addr + e.size ∧ 0x800000c0 / hashedPairWrites.burstSize ≠ e.window)
    (by decide +kernel) ?_
  rintro s hrun ⟨e, he, hle, hlt, hwindow⟩
  exact ⟨e, he, fun h => hwindow (h _ ⟨hle, hlt⟩).1⟩

end WriteSystem
