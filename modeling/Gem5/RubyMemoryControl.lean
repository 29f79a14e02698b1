/-
# The activates of a Ruby memory controller

`RubyMemoryControl` (`src/mem/ruby/structures/RubyMemoryControl.cc`): each cycle the banks are
scanned in turn, and the first request or refresh that is ready activates its bank.  Of each
rank a shift register holds the activates of the last `tFaw` cycles and a counter their number,
which must not exceed four.

The bit of a new activate is `1 << (tFaw - 1)`, which is computed in 32 bits: from `tFaw = 32` on
it is not one bit of the register.

The random numbers of a cycle are arguments of `executeCycle`, and `activates` records the number
of activates of each rank in each cycle, the last cycle first.  Responses and statistics are left
out, as is the assertion of `getRank`, which holds for every bank of the controller.

* `RubyMemoryControl.step` — the calls of the controller.
* `bitCount`               — the number of bits that are set.
* `encode`                 — the register that holds the activates of a window.
* `Register`               — a register and its counter agree with what was activated.
-/
import Mathlib
import Gem5.TransitionSystem

open Function

structure MemoryNode where
  addr : BitVec 64
  isMemRead : Bool

structure MemControlParams where
  banksPerRank : ℕ := 1
  ranksPerDimm : ℕ := 1
  dimmsPerChannel : ℕ := 1
  bankBit0 : ℕ := 0
  rankBit0 : ℕ := 0
  dimmBit0 : ℕ := 0
  bankQueueSize : ℕ := 1
  bankBusyTime : ℤ := 1
  rankRankDelay : ℤ := 0
  readWriteDelay : ℤ := 0
  basicBusBusyTime : ℤ := 1
  refreshPeriod : ℤ := 0
  memRandomArbitrate : ℤ := 0
  tFaw : ℕ
  memFixedDelay : ℕ := 0

structure RubyMemoryControl where
  inputQueue : List MemoryNode := []
  bankQueues : ℕ → List MemoryNode := fun _ => []
  bankBusyCounter : ℕ → ℤ := fun _ => 0
  oldRequest : ℕ → Bool := fun _ => false
  tfawShift : ℕ → BitVec 64 := fun _ => 0
  tfawCount : ℕ → ℤ := fun _ => 0
  busBusyWrite : ℤ := 0
  busBusyReadNewRank : ℤ := 0
  busBusyBasic : ℤ := 0
  busBusyWhichRank : ℕ := 0
  roundRobin : ℕ := 0
  refreshCount : ℤ := 1
  needRefresh : ℕ := 0
  refreshBank : ℕ := 0
  ageCounter : ℤ := 0
  activates : ℕ → List ℕ := fun _ => []

namespace RubyMemoryControl

variable (p : MemControlParams) (s : RubyMemoryControl)

def totalBanks : ℕ := p.banksPerRank * p.ranksPerDimm * p.dimmsPerChannel

def getBank (addr : BitVec 64) : ℕ :=
  let dimm := (addr.toNat >>> p.dimmBit0) &&& (p.dimmsPerChannel - 1)
  let rank := (addr.toNat >>> p.rankBit0) &&& (p.ranksPerDimm - 1)
  let bank := (addr.toNat >>> p.bankBit0) &&& (p.banksPerRank - 1)
  dimm * p.ranksPerDimm * p.banksPerRank + rank * p.banksPerRank + bank

def getRank (bank : ℕ) : ℕ := bank / p.banksPerRank

def ACTIVATE_PER_TFAW : ℤ := 4

def enqueueMemRef (memRef : MemoryNode) : RubyMemoryControl :=
  { s with inputQueue := s.inputQueue ++ [memRef] }

/-- Whether `req`, at the head of the queue of a bank, can be issued. -/
def queueReady (randBusy : Bool) (bank : ℕ) (req : MemoryNode) : Bool :=
  let rank := getRank p bank
  if 0 < s.bankBusyCounter bank ∧ p.memFixedDelay = 0 then false
  else if 2 ≤ p.memRandomArbitrate ∧ randBusy then false
  else if p.memFixedDelay ≠ 0 then true
  else if 2 * p.bankBusyTime < s.ageCounter ∧ ¬ s.oldRequest bank then false
  else if s.busBusyBasic = p.basicBusBusyTime then false
  else if 0 < s.busBusyBasic then false
  else if ACTIVATE_PER_TFAW ≤ s.tfawCount rank then false
  else if ¬ req.isMemRead ∧ 0 < s.busBusyWrite then false
  else if req.isMemRead ∧ rank ≠ s.busBusyWhichRank ∧ 0 < s.busBusyReadNewRank then false
  else true

/-- `1 << n` of an `int`, as it is combined with a 64-bit number. -/
def activateBit (n : ℕ) : Except Abort (BitVec 64) :=
  if n < 32 then .ok ((1#32 <<< n).signExtend 64) else .error .undefined

/-- The activate is recorded. -/
def record (rank : ℕ) : RubyMemoryControl :=
  { s with activates := update s.activates rank ((s.activates rank).modifyHead (· + 1)) }

def markTfaw (rank : ℕ) : Except Abort RubyMemoryControl :=
  if p.tFaw = 0 then .ok (s.record rank)
  else do
    let bit ← activateBit (p.tFaw - 1)
    .ok { s.record rank with
      tfawShift := update s.tfawShift rank (s.tfawShift rank ||| bit)
      tfawCount := update s.tfawCount rank (s.tfawCount rank + 1) }

def issueRefresh (bank : ℕ) : Except Abort RubyMemoryControl :=
  if s.needRefresh = 0 ∨ s.refreshBank ≠ bank then .ok s
  else if 0 < s.bankBusyCounter bank then .ok s
  else if 0 < s.busBusyBasic then .ok s
  else if ACTIVATE_PER_TFAW ≤ s.tfawCount (getRank p bank) then .ok s
  else
    markTfaw p
      { s with
        needRefresh := s.needRefresh - 1
        refreshBank := if totalBanks p ≤ s.refreshBank + 1 then 0 else s.refreshBank + 1
        bankBusyCounter := update s.bankBusyCounter bank p.bankBusyTime
        busBusyBasic := p.basicBusBusyTime
        busBusyWrite := p.basicBusBusyTime
        busBusyReadNewRank := p.basicBusBusyTime }
      (getRank p bank)

/-- `req` is the head of the queue of the bank and `rest` what follows it. -/
def issueRequest (bank : ℕ) (req : MemoryNode) (rest : List MemoryNode) :
    Except Abort RubyMemoryControl := do
  let rank := getRank p bank
  let s ← markTfaw p
    { s with
      bankQueues := update s.bankQueues bank rest
      oldRequest := update s.oldRequest bank false }
    rank
  .ok { s with
    bankBusyCounter := update s.bankBusyCounter bank p.bankBusyTime
    busBusyWhichRank := rank
    busBusyBasic := p.basicBusBusyTime
    busBusyWrite := p.basicBusBusyTime + if req.isMemRead then p.readWriteDelay else 0
    busBusyReadNewRank := p.basicBusBusyTime + if req.isMemRead then p.rankRankDelay else 0 }

/-! ## A cycle -/

def countDown (x : ℤ) : ℤ := if 0 < x then x - 1 else x

/-- The busy counters and the shift registers. -/
def countTime : RubyMemoryControl :=
  { s with
    bankBusyCounter := fun bank => countDown (s.bankBusyCounter bank)
    busBusyWrite := countDown s.busBusyWrite
    busBusyReadNewRank := countDown s.busBusyReadNewRank
    busBusyBasic := countDown s.busBusyBasic
    tfawCount := fun rank =>
      if (s.tfawShift rank).getLsbD 0 then s.tfawCount rank - 1 else s.tfawCount rank
    tfawShift := fun rank => s.tfawShift rank >>> 1
    activates := fun rank => 0 :: s.activates rank }

def latchRefresh : Except Abort RubyMemoryControl :=
  let refreshCount := if p.memFixedDelay = 0 then s.refreshCount - 1 else s.refreshCount
  if refreshCount = 0 then
    if s.needRefresh < 10 then
      .ok { s with
        refreshCount := p.refreshPeriod.tdiv (totalBanks p), needRefresh := s.needRefresh + 1 }
    else .error .assertion
  else .ok { s with refreshCount }

/-- If the batch of old requests is done, the requests at hand are the new one. -/
def newBatch : RubyMemoryControl :=
  if (List.range (totalBanks p)).any s.oldRequest then { s with ageCounter := s.ageCounter + 1 }
  else
    { s with
      oldRequest := fun bank => s.oldRequest bank || !(s.bankQueues bank).isEmpty, ageCounter := 0 }

/-- One round of the scan. -/
def scanBank (randBusy : ℕ → Bool) : Except Abort RubyMemoryControl := do
  let bank := if totalBanks p ≤ s.roundRobin + 1 then 0 else s.roundRobin + 1
  let s ← issueRefresh p { s with roundRobin := bank } bank
  match s.bankQueues bank with
  | [] => .ok s
  | req :: rest =>
    if queueReady p s (randBusy bank) bank req then issueRequest p s bank req rest else .ok s

/-- At most one request goes to the queue of its bank. -/
def acceptInput : RubyMemoryControl :=
  match s.inputQueue with
  | [] => s
  | req :: rest =>
    let bank := getBank p req.addr
    if (s.bankQueues bank).length < p.bankQueueSize then
      { s with
        inputQueue := rest, bankQueues := update s.bankQueues bank (s.bankQueues bank ++ [req]) }
    else s

def executeCycle (start : ℕ) (randBusy : ℕ → Bool) : Except Abort RubyMemoryControl := do
  let s ← latchRefresh p s.countTime
  let s := newBatch p s
  let s := if p.memRandomArbitrate ≠ 0 then { s with roundRobin := start % totalBanks p } else s
  let s ← (List.range (totalBanks p)).foldlM (fun s _ => scanBank p s randBusy) s
  .ok (acceptInput p s)

inductive Call
  | enqueueMemRef (memRef : MemoryNode)
  | executeCycle (start : ℕ) (randBusy : ℕ → Bool)

def step : Call → Except Abort RubyMemoryControl
  | .enqueueMemRef memRef => .ok (s.enqueueMemRef memRef)
  | .executeCycle start randBusy => executeCycle p s start randBusy

end RubyMemoryControl

/-! ## Registers -/

/-- The number of bits that are set among the lowest `n`. -/
def bitCount : ℕ → ℕ → ℕ
  | 0, _ => 0
  | n + 1, x => x % 2 + bitCount n (x / 2)

/-- The register that holds the last `n` cycles, the last in its highest bit. -/
def encode : ℕ → List ℕ → ℕ
  | 0, _ => 0
  | _ + 1, [] => 0
  | n + 1, a :: h => a * 2 ^ n + encode n h

/-- A register and its counter agree with the activates of each cycle. -/
structure Register (n : ℕ) (shift : BitVec 64) (count : ℤ) (h : List ℕ) : Prop where
  bits : shift.toNat = encode n h
  count : count = (h.take n).sum
  single : ∀ a ∈ h, a ≤ 1
  window : ∀ k, ((h.drop k).take n).sum ≤ 4

section Registers

variable {n : ℕ} {h : List ℕ}

/-- The lowest bit is the oldest cycle. -/
theorem encode_succ (n : ℕ) (h : List ℕ) : encode (n + 1) h = 2 * encode n h + h.getD n 0 := by
  induction n generalizing h with
  | zero => cases h <;> simp [encode]
  | succ n ih =>
    cases h with
    | nil => rfl
    | cons a h =>
      rw [encode, ih, encode, List.getD_cons_succ, pow_succ]
      ring

theorem sum_take_succ (n : ℕ) (h : List ℕ) : (h.take (n + 1)).sum = (h.take n).sum + h.getD n 0 := by
  induction n generalizing h with
  | zero => cases h <;> simp
  | succ n ih =>
    cases h with
    | nil => rfl
    | cons a h =>
      rw [List.take_succ_cons, List.sum_cons, ih, List.take_succ_cons, List.sum_cons,
        List.getD_cons_succ, add_assoc]

theorem getD_le_one (hone : ∀ a ∈ h, a ≤ 1) (n : ℕ) : h.getD n 0 ≤ 1 := by
  rw [List.getD_eq_getElem?_getD]
  cases hn : h[n]? with
  | none => exact Nat.zero_le 1
  | some a => exact hone a (List.mem_of_getElem? hn)

theorem encode_lt (hone : ∀ a ∈ h, a ≤ 1) : encode n h < 2 ^ n := by
  induction n with
  | zero => exact one_pos
  | succ n ih =>
    have hbit := getD_le_one hone n
    rw [encode_succ, pow_succ]
    omega

theorem bitCount_encode (hone : ∀ a ∈ h, a ≤ 1) (m : ℕ) :
    bitCount (n + m) (encode n h) = (h.take n).sum := by
  induction n with
  | zero =>
    rw [encode, zero_add]
    induction m with
    | zero => rfl
    | succ m ih => rwa [bitCount, Nat.zero_div, Nat.zero_mod, zero_add]
  | succ n ih =>
    have hbit := getD_le_one hone n
    rw [encode_succ, add_right_comm, bitCount, sum_take_succ, ← ih]
    rw [show (2 * encode n h + h.getD n 0) / 2 = encode n h by omega]
    omega

namespace Register

variable {shift : BitVec 64} {count : ℤ}

/-- A cycle begins. -/
theorem shift_right (hr : Register (n + 1) shift count h) :
    Register (n + 1) (shift >>> 1) (if shift.getLsbD 0 then count - 1 else count) (0 :: h) := by
  have hbit := getD_le_one hr.single n
  have hbits := hr.bits
  have hcount := hr.count
  have hall := hr.window 0
  rw [encode_succ] at hbits
  rw [sum_take_succ] at hcount
  rw [List.drop_zero, sum_take_succ] at hall
  refine ⟨?_, ?_, ?_, ?_⟩
  · rw [BitVec.toNat_ushiftRight, Nat.shiftRight_eq_div_pow, encode]
    omega
  · have hlow : shift.getLsbD 0 = decide (shift.toNat % 2 = 1) := Nat.testBit_zero _
    rw [hlow, List.take_succ_cons, List.sum_cons]
    split_ifs with hodd
    · rw [decide_eq_true_iff] at hodd
      omega
    · rw [decide_eq_true_iff] at hodd
      omega
  · intro a ha
    rcases List.mem_cons.mp ha with rfl | ha
    · exact Nat.zero_le 1
    · exact hr.single a ha
  · intro k
    cases k with
    | zero =>
      rw [List.drop_zero, List.take_succ_cons, List.sum_cons]
      omega
    | succ k => exact hr.window k

/-- An activate is marked. -/
theorem mark (hr : Register (n + 1) shift count (0 :: h)) (hcount : count < 4) (hn : n < 31) :
    Register (n + 1) (shift ||| (1#32 <<< n).signExtend 64) (count + 1) (1 :: h) := by
  have hone : ∀ a ∈ h, a ≤ 1 := fun a ha => hr.single a (.tail _ ha)
  have hbits := hr.bits
  have hsum := hr.count
  have hpow : ((1#32 <<< n).signExtend 64).toNat = 2 ^ n := by interval_cases n <;> rfl
  rw [encode, zero_mul, zero_add] at hbits
  rw [List.take_succ_cons, List.sum_cons] at hsum
  refine ⟨?_, ?_, ?_, ?_⟩
  · have hor := Nat.two_pow_add_eq_or_of_lt (encode_lt (n := n) hone) 1
    rw [BitVec.toNat_or, hpow, hbits, Nat.or_comm, encode, one_mul]
    rw [mul_one] at hor
    exact hor.symm
  · rw [List.take_succ_cons, List.sum_cons]
    omega
  · intro a ha
    rcases List.mem_cons.mp ha with rfl | ha
    · exact le_rfl
    · exact hone a ha
  · intro k
    cases k with
    | zero =>
      rw [List.drop_zero, List.take_succ_cons, List.sum_cons]
      omega
    | succ k => exact hr.window (k + 1)

end Register

end Registers

/-! ## Every cycle -/

namespace RubyMemoryControl

variable {p : MemControlParams} {s t : RubyMemoryControl}

variable (p s) in
def Registered : Prop := ∀ rank, Register p.tFaw (s.tfawShift rank) (s.tfawCount rank) (s.activates rank)

variable (p s) in
/-- During the scan: as long as the bus is free, nothing has been activated. -/
def Scanning : Prop :=
  Registered p s ∧ (s.busBusyBasic ≤ 0 → ∀ rank, ∃ h, s.activates rank = 0 :: h)

theorem Registered.markTfaw (hfaw : p.tFaw ≠ 0) (hint : p.tFaw ≤ 31) {rank : ℕ}
    (ht : markTfaw p s rank = .ok t) (hs : Registered p s)
    (hnone : ∃ h, s.activates rank = 0 :: h) (hcount : s.tfawCount rank < 4) :
    Registered p t ∧ t.busBusyBasic = s.busBusyBasic := by
  obtain ⟨n, hn⟩ := Nat.exists_eq_succ_of_ne_zero hfaw
  obtain ⟨h, hh⟩ := hnone
  unfold RubyMemoryControl.markTfaw activateBit at ht
  rw [if_neg hfaw, hn, Nat.succ_sub_one, if_pos (by omega)] at ht
  cases ht
  refine ⟨?_, rfl⟩
  intro r
  have hr := hs r
  rw [hn] at hr ⊢
  rcases eq_or_ne r rank with rfl | hrank
  · rw [hh] at hr
    have hmark := hr.mark hcount (by omega)
    dsimp only [record]
    rw [update_self, update_self, update_self, hh]
    exact hmark
  · dsimp only [record]
    rw [update_of_ne hrank, update_of_ne hrank, update_of_ne hrank]
    exact hr

/-- A request is issued only if the bus is free and fewer than four activates are in the
window. -/
theorem of_queueReady (hdelay : p.memFixedDelay = 0) {randBusy : Bool} {bank : ℕ} {req : MemoryNode}
    (h : queueReady p s randBusy bank req) :
    s.busBusyBasic ≤ 0 ∧ s.tfawCount (getRank p bank) < 4 := by
  unfold queueReady at h
  dsimp only at h
  split_ifs at h with _ _ _ _ _ hbusy hfour
  · exact absurd hdelay ‹_›
  · exact ⟨not_lt.mp hbusy, not_le.mp hfour⟩

section

variable (hdelay : p.memFixedDelay = 0) (hbus : 1 ≤ p.basicBusBusyTime) (hfaw : p.tFaw ≠ 0)
  (hint : p.tFaw ≤ 31)

include hbus hfaw hint

theorem Scanning.issueRefresh {bank : ℕ} (ht : issueRefresh p s bank = .ok t) (hs : Scanning p s) :
    Scanning p t := by
  unfold RubyMemoryControl.issueRefresh at ht
  iterate 4
    split at ht
    · exact Except.ok.inj ht ▸ hs
  rename_i hbusy hfour
  obtain ⟨hkept, hbasic⟩ := Registered.markTfaw hfaw hint ht hs.1 (hs.2 (not_lt.mp hbusy) _)
    (not_le.mp hfour)
  refine ⟨hkept, fun hfree => ?_⟩
  rw [hbasic] at hfree
  exact absurd (hbus.trans hfree) (by decide)

include hdelay

theorem Scanning.scanBank {randBusy : ℕ → Bool} (hs : Scanning p s)
    (ht : scanBank p s randBusy = .ok t) : Scanning p t := by
  obtain ⟨s₁, h₁, ht⟩ := Except.bind_eq_ok ht
  have hs₁ : Scanning p s₁ := Scanning.issueRefresh hbus hfaw hint h₁ hs
  generalize (if totalBanks p ≤ s.roundRobin + 1 then 0 else s.roundRobin + 1) = bank at ht
  split at ht
  · exact Except.ok.inj ht ▸ hs₁
  · split_ifs at ht with hready
    · obtain ⟨hfree, hfour⟩ := of_queueReady hdelay hready
      obtain ⟨s₂, h₂, ht⟩ := Except.bind_eq_ok ht
      obtain ⟨hkept, -⟩ := Registered.markTfaw hfaw hint h₂ hs₁.1 (hs₁.2 hfree _) hfour
      cases ht
      exact ⟨hkept, fun hfree => absurd (hbus.trans hfree) (by decide)⟩
    · exact Except.ok.inj ht ▸ hs₁

/-- The registers are right after every call. -/
theorem Registered.step (hs : Registered p s) {call : Call} (ht : step p s call = .ok t) :
    Registered p t := by
  cases call with
  | enqueueMemRef memRef => exact Except.ok.inj ht ▸ hs
  | executeCycle start randBusy =>
    obtain ⟨s₁, h₁, ht⟩ := Except.bind_eq_ok ht
    obtain ⟨s₂, h₂, ht⟩ := Except.bind_eq_ok ht
    -- the registers move on, and nothing has been activated in this cycle
    have htime : Scanning p s.countTime := by
      obtain ⟨n, hn⟩ := Nat.exists_eq_succ_of_ne_zero hfaw
      refine ⟨fun rank => ?_, fun _ rank => ⟨_, rfl⟩⟩
      have hr := hs rank
      rw [hn] at hr ⊢
      exact hr.shift_right
    have hs₁ : Scanning p s₁ := by
      unfold latchRefresh at h₁
      dsimp only at h₁
      split_ifs at h₁ <;> exact Except.ok.inj h₁ ▸ htime
    have hbatch : Scanning p (newBatch p s₁) := by
      unfold newBatch
      split_ifs <;> exact hs₁
    have hs₂ : Scanning p s₂ := by
      refine foldlM_invariant (fun _ _ _ hs => Scanning.scanBank hdelay hbus hfaw hint hs) _ ?_ h₂
      split_ifs <;> exact hbatch
    cases ht
    unfold acceptInput
    split
    · exact hs₂.1
    · dsimp only
      split_ifs <;> exact hs₂.1

/-- **Four activates in a window.**  For `tFaw` up to 31, in every run the counter of a rank is the
number of set bits of its register, and in `tFaw` consecutive cycles a rank has at most four
activates. -/
theorem four_activates_per_window {calls : List Call}
    (h : Runs (Within (step p) Anytime) {} calls s) (rank : ℕ) :
    s.tfawCount rank = bitCount 64 (s.tfawShift rank).toNat ∧
      ∀ pre window post, s.activates rank = pre ++ window ++ post → window.length = p.tFaw →
        window.sum ≤ 4 := by
  have hregistered : Registered p s := by
    refine h.invariant (fun s call t hs hstep => ?_) fun rank => ?_
    · exact Registered.step hdelay hbus hfaw hint hs hstep.2
    · obtain ⟨n, hn⟩ := Nat.exists_eq_succ_of_ne_zero hfaw
      rw [hn]
      exact ⟨rfl, rfl, nofun, fun k => by simp⟩
  have hr := hregistered rank
  constructor
  · have hbits := bitCount_encode (n := p.tFaw) hr.single (64 - p.tFaw)
    rw [Nat.add_sub_cancel' (by omega)] at hbits
    rw [hr.count, hr.bits, hbits]
  · intro pre window post hsplit hlength
    have hwindow := hr.window pre.length
    rwa [hsplit, List.append_assoc, List.drop_left, List.take_left' hlength] at hwindow

end

/-- One bank that wants a refresh in every cycle. -/
theorem four_activates_per_window_refresh :
    ∃ s, Runs (Within (step { refreshPeriod := 1, tFaw := 6 }) Anytime) {}
        (List.replicate 8 (.executeCycle 0 fun _ => false)) s ∧
      s.activates 0 = [1, 1, 0, 0, 1, 1, 1, 1] ∧
      s.tfawCount 0 = bitCount 64 (s.tfawShift 0).toNat ∧
      ∀ pre window post, s.activates 0 = pre ++ window ++ post → window.length = 6 →
        window.sum ≤ 4 := by
  refine exists_runs_and_of_execWithin (by decide +kernel) ?_
  intro s hrun _
  exact four_activates_per_window rfl (by decide) (by decide) (by decide) hrun 0

/-- With `tFaw = 32` the first activate sets 33 bits. -/
theorem activate_sets_more_bits :
    ∃ s, Runs (Within (step { refreshPeriod := 1, tFaw := 32 }) Anytime) {}
        [.executeCycle 0 fun _ => false] s ∧
      s.tfawCount 0 = 1 ∧ bitCount 64 (s.tfawShift 0).toNat = 33 := by
  exact exists_runs_of_execWithin (by decide +kernel)

end RubyMemoryControl
