/-
# The slot arithmetic of the SLICC utilities

`src/mem/ruby/slicc_interface/RubySlicc_Util.hh` computes from a cycle the start
of its period, the start of a node's slot and the latency to the next one.  The
bus has `NPROC` slots of `SLOT_WIDTH` cycles in a period, both macros of
`Trace.hh`.

The functions mix types.  Cycles are 64-bit, but the period and the number of
the period are `unsigned int`, and so is their product; node ids are `int`; and
where the slot of a node is meant, the width is the literal 50.  So the results
are exact for the widths and times of `SlotExact` and for no others
(`slot_law_iff_slotExact`).

* `getNearestStartPeriod`, `getCurrentStartSlot`, `getNearestSlot`,
  `getArbitLatency`, `inBound` — the functions.
* `SlotLaw`   — what they should return.
* `SlotExact` — when they do.
-/
import Gem5.TransitionSystem
import Mathlib

/-! ## C++ integers -/

/-- A value of type `int`; overflow is undefined. -/
def toInt (x : ℤ) : Except Abort ℤ :=
  if -2 ^ 31 ≤ x ∧ x < 2 ^ 31 then .ok x else .error .undefined

/-- A product of two integers, each an `int` if it fits and a `long` otherwise. -/
def mulInt (x y : ℤ) : Except Abort ℤ :=
  if x < 2 ^ 31 ∧ y < 2 ^ 31 then toInt (x * y)
  else if -2 ^ 63 ≤ x * y ∧ x * y < 2 ^ 63 then .ok (x * y)
  else .error .undefined

/-- The conversion to `uint64_t`. -/
def toUInt64 (x : ℤ) : ℕ := (x % 2 ^ 64).toNat

/-! ## The functions -/

section

variable (nproc width : ℕ)

/-- `unsigned int slotPeriod = NPROC*SLOT_WIDTH`.  Every use divides by it. -/
def slotPeriod : Except Abort ℕ := do
  let period ← mulInt nproc width
  if (period % 2 ^ 32).toNat = 0 then .error .undefined else .ok (period % 2 ^ 32).toNat

variable (t : ℕ)

def inBound (nodeID : ℤ) : Except Abort Bool := do
  let period ← slotPeriod nproc width
  let next ← toInt (nodeID + 1)
  let stop ← mulInt next width
  let start ← mulInt nodeID width
  pure (decide (t % period < toUInt64 stop) && decide (toUInt64 start ≤ t % period))

def getNearestStartPeriod : Except Abort ℕ := do
  let period ← slotPeriod nproc width
  pure (t / period % 2 ^ 32 * period % 2 ^ 32)

/-- The loop that looks for the first slot not before `t`; the first argument bounds its rounds,
and a loop that goes on without end is undefined. -/
def seekSlot : ℕ → ℕ → ℕ → Except Abort ℕ
  | 0, _, _ => .error .undefined
  | rounds + 1, t, start =>
    if start < t then seekSlot rounds t ((start + 50) % 2 ^ 64) else .ok start

/-- `getCurrentStartSlot`; node -1 stands for any. -/
def getCurrentStartSlot (nodeID : ℤ) : Except Abort ℕ := do
  let periodStart ← getNearestStartPeriod nproc width t
  if nodeID = -1 then seekSlot (t + 1) t periodStart
  else do
    let offset ← toInt (nodeID * 50)
    pure ((periodStart + toUInt64 offset) % 2 ^ 64)

def getNearestSlot (nodeID : ℤ) : Except Abort ℕ := do
  let nearestPeriod ← getNearestStartPeriod nproc width t
  let offset ← toInt (nodeID * 50)
  let period ← slotPeriod nproc width
  if t < (nearestPeriod + toUInt64 offset) % 2 ^ 64 then
    pure ((nearestPeriod + toUInt64 offset) % 2 ^ 64)
  else pure (((nearestPeriod + toUInt64 offset) % 2 ^ 64 + period) % 2 ^ 64)

/-- `getArbitLatency`; the difference of two `Cycles` is asserted not to be negative. -/
def getArbitLatency (nodeID : ℤ) (zeroArb : Bool) : Except Abort ℕ :=
  if zeroArb then do
    let nearestSlot ← getCurrentStartSlot nproc width t (-1)
    if t ≤ nearestSlot then pure (nearestSlot - t) else .error .assertion
  else do
    let nearestSlot ← getNearestSlot nproc width ((t + 5) % 2 ^ 64) nodeID
    if nearestSlot < t then pure (t - nearestSlot) else pure (nearestSlot - t)

/-! ## What they should return -/

/-- **The law of the slots** at cycle `t`, for every node. -/
structure SlotLaw (t : ℕ) : Prop where
  startPeriod : ∃ s, getNearestStartPeriod nproc width t = .ok s ∧
    IsGreatest {m | nproc * width ∣ m ∧ m ≤ t} s
  nearestSlot : ∀ n < nproc, ∃ s, getNearestSlot nproc width t n = .ok s ∧
    IsLeast {m | t < m ∧ m ≡ n * width [MOD nproc * width]} s
  startSlot : ∀ n < nproc, inBound nproc width t n = .ok true →
    ∃ s, getCurrentStartSlot nproc width t n = .ok s ∧ IsGreatest {m | width ∣ m ∧ m ≤ t} s
  arbitLatency : ∀ n < nproc, ∃ s latency, getArbitLatency nproc width t n false = .ok latency ∧
    IsLeast {m | t + 5 < m ∧ m ≡ n * width [MOD nproc * width]} s ∧
    t + latency = s ∧ 5 < latency ∧ latency ≤ 5 + nproc * width

/-- **When the law holds**: the period is computed without overflow, the slots are 50 cycles wide
or there is only one, and the periods of `t` and of `t + 5` start below `2 ^ 32`.  With one slot
of nearly `2 ^ 31` cycles there is a cycle where the second of these fails and the latency comes
out right all the same. -/
structure SlotExact (t : ℕ) : Prop where
  int : nproc < 2 ^ 31 → width < 2 ^ 31 → nproc * width < 2 ^ 31
  unsigned : nproc * width < 2 ^ 32
  literal : nproc = 1 ∨ width = 50
  now : t / (nproc * width) * (nproc * width) < 2 ^ 32
  soon : (t + 5) / (nproc * width) * (nproc * width) < 2 ^ 32 ∨
    (nproc = 1 ∧ width + ((t + 5) / width * width - t) = 2 ^ 31)

end

/-! ## Multiples and residues -/

theorem isGreatest_mul_div {P : ℕ} (hP : 0 < P) (t : ℕ) :
    IsGreatest {m | P ∣ m ∧ m ≤ t} (t / P * P) := by
  refine ⟨⟨dvd_mul_left P _, Nat.div_mul_le_self t P⟩, ?_⟩
  rintro m ⟨⟨k, rfl⟩, hm⟩
  rw [mul_comm P k]
  apply Nat.mul_le_mul_right
  rw [Nat.le_div_iff_mul_le hP, mul_comm]
  exact hm

/-- A multiple beyond the last one up to `t` is beyond `t`. -/
theorem lt_of_mul_div_lt {P t m : ℕ} (hP : 0 < P) (hdvd : P ∣ m) (h : t / P * P < m) : t < m := by
  by_contra hle
  exact absurd ((isGreatest_mul_div hP t).2 ⟨hdvd, not_lt.mp hle⟩) (not_le.mpr h)

/-- The next time after `t` with a given residue. -/
theorem isLeast_residue {P r : ℕ} (hr : r < P) (t : ℕ) :
    IsLeast {m | t < m ∧ m ≡ r [MOD P]}
      (if t < t / P * P + r then t / P * P + r else t / P * P + r + P) := by
  have hlt : t < t / P * P + P := Nat.lt_div_mul_add (by omega)
  refine ⟨⟨?_, ?_⟩, ?_⟩
  · split <;> omega
  · split
    · simp [Nat.ModEq]
    · simp [Nat.ModEq]
  · rintro m ⟨htm, hmod⟩
    have hm : m / P * P + r = m := by
      have hmr : m % P = r := by rw [hmod, Nat.mod_eq_of_lt hr]
      have := Nat.div_add_mod' m P
      omega
    have hle : t / P ≤ m / P := Nat.div_le_div_right htm.le
    rcases hle.eq_or_lt with heq | hlt'
    · -- in the period of `t`
      rw [← heq] at hm
      rw [if_pos (by omega)]
      omega
    · have hmul : (t / P + 1) * P ≤ m / P * P := Nat.mul_le_mul_right P hlt'
      rw [add_mul] at hmul
      split <;> omega

/-! ## The functions without overflow -/

section

variable {nproc width t : ℕ}

variable {n p : ℕ}

theorem toInt_natCast (hn : n < 2 ^ 31) : toInt n = .ok (n : ℤ) :=
  if_pos ⟨by omega, by omega⟩

theorem toInt_eq_ok {x y : ℤ} (h : toInt x = .ok y) : y = x ∧ -2 ^ 31 ≤ x ∧ x < 2 ^ 31 := by
  unfold toInt at h
  split at h
  · rename_i hrange
    exact ⟨(Except.ok.inj h).symm, hrange⟩
  · cases h

/-- The offset of a node, with the literal width. -/
theorem toInt_offset (hn : n * 50 < 2 ^ 31) :
    toInt ((n : ℤ) * 50) = .ok ((n * 50 : ℕ) : ℤ) := by
  rw [← toInt_natCast hn]
  rfl

theorem toUInt64_natCast (hn : n < 2 ^ 64) : toUInt64 n = n := by
  unfold toUInt64
  omega

theorem mulInt_natCast {m : ℕ} (hint : m < 2 ^ 31 → n < 2 ^ 31 → m * n < 2 ^ 31)
    (hmn : m * n < 2 ^ 32) : mulInt m n = .ok ((m * n : ℕ) : ℤ) := by
  unfold mulInt
  split
  · exact toInt_natCast (hint (by omega) (by omega))
  · exact if_pos ⟨by omega, by omega⟩

/-- A product that is computed is the product, and that of two `int`s is an `int`. -/
theorem mulInt_eq_ok {x y z : ℤ} (h : mulInt x y = .ok z) :
    z = x * y ∧ (x < 2 ^ 31 → y < 2 ^ 31 → x * y < 2 ^ 31) := by
  unfold mulInt at h
  split at h
  · obtain ⟨hz, -, hlt⟩ := toInt_eq_ok h
    exact ⟨hz, fun _ _ => hlt⟩
  · rename_i hlong
    split at h
    · exact ⟨(Except.ok.inj h).symm, fun hx hy => absurd ⟨hx, hy⟩ hlong⟩
    · cases h

/-- What `slotPeriod` returns if it returns. -/
theorem slotPeriod_eq_ok (h : slotPeriod nproc width = .ok p) :
    p = nproc * width % 2 ^ 32 ∧ 0 < p ∧
      (nproc < 2 ^ 31 → width < 2 ^ 31 → nproc * width < 2 ^ 31) := by
  obtain ⟨q, hq, h⟩ := Except.bind_eq_ok h
  have hmul : q = ((nproc * width : ℕ) : ℤ) ∧
      (nproc < 2 ^ 31 → width < 2 ^ 31 → nproc * width < 2 ^ 31) := by
    obtain ⟨hq, hint⟩ := mulInt_eq_ok hq
    exact ⟨hq, fun hn hw => by exact_mod_cast hint (by omega) (by omega)⟩
  obtain ⟨rfl, hint⟩ := hmul
  split at h
  · cases h
  · cases h
    refine ⟨by omega, by omega, hint⟩

theorem slotPeriod_ok (hint : nproc < 2 ^ 31 → width < 2 ^ 31 → nproc * width < 2 ^ 31)
    (hunsigned : nproc * width < 2 ^ 32) (hpos : 0 < nproc * width) :
    slotPeriod nproc width = .ok (nproc * width) := by
  unfold slotPeriod
  rw [mulInt_natCast hint hunsigned]
  have hmod : (((nproc * width : ℕ) : ℤ) % 2 ^ 32).toNat = nproc * width := by omega
  show (if (((nproc * width : ℕ) : ℤ) % 2 ^ 32).toNat = 0 then _ else _) = _
  rw [hmod, if_neg (by omega)]

/-- The product of the period and its number, as 32-bit values. -/
theorem getNearestStartPeriod_eq (hp : slotPeriod nproc width = .ok p) (t : ℕ) :
    getNearestStartPeriod nproc width t = .ok (t / p * p % 2 ^ 32) := by
  unfold getNearestStartPeriod
  rw [hp]
  show Except.ok (t / p % 2 ^ 32 * p % 2 ^ 32) = _
  rw [Nat.mod_mul_mod]

theorem getNearestSlot_eq (hp : slotPeriod nproc width = .ok p) (hpp : p < 2 ^ 32)
    (hn : n * 50 < 2 ^ 31) (t : ℕ) :
    getNearestSlot nproc width t n = .ok
      (if t < t / p * p % 2 ^ 32 + n * 50 then t / p * p % 2 ^ 32 + n * 50
        else t / p * p % 2 ^ 32 + n * 50 + p) := by
  unfold getNearestSlot
  rw [getNearestStartPeriod_eq hp, toInt_offset hn, hp]
  show (if t < (t / p * p % 2 ^ 32 + toUInt64 _) % 2 ^ 64 then _ else _) = _
  rw [toUInt64_natCast (by omega), Nat.mod_eq_of_lt (by omega)]
  split
  · rfl
  · show Except.ok _ = _
    rw [Nat.mod_eq_of_lt (by omega)]

theorem getCurrentStartSlot_eq (hp : slotPeriod nproc width = .ok p)
    (hn : n * 50 < 2 ^ 31) (t : ℕ) :
    getCurrentStartSlot nproc width t n = .ok (t / p * p % 2 ^ 32 + n * 50) := by
  unfold getCurrentStartSlot
  rw [getNearestStartPeriod_eq hp, toInt_offset hn]
  show Except.ok ((t / p * p % 2 ^ 32 + toUInt64 _) % 2 ^ 64) = _
  rw [toUInt64_natCast (by omega), Nat.mod_eq_of_lt (by omega)]

theorem getArbitLatency_eq (hp : slotPeriod nproc width = .ok p) (hpp : p < 2 ^ 32)
    (hn : n * 50 < 2 ^ 31) (ht : t + 5 < 2 ^ 64) {s : ℕ}
    (hs : s = if t + 5 < (t + 5) / p * p % 2 ^ 32 + n * 50 then (t + 5) / p * p % 2 ^ 32 + n * 50
      else (t + 5) / p * p % 2 ^ 32 + n * 50 + p) :
    getArbitLatency nproc width t n false = .ok (if s < t then t - s else s - t) := by
  unfold getArbitLatency
  rw [Nat.mod_eq_of_lt ht, getNearestSlot_eq hp hpp hn, ← hs]
  show (if s < t then pure _ else pure _) = _
  split <;> rfl

/-! ## The law -/

/-- The start of the slot that contains `t`. -/
theorem isGreatest_slot (hlo : n * width ≤ t % (nproc * width))
    (hhi : t % (nproc * width) < (n + 1) * width) :
    IsGreatest {m | width ∣ m ∧ m ≤ t} (t / (nproc * width) * (nproc * width) + n * width) := by
  have ht := Nat.div_add_mod' t (nproc * width)
  refine ⟨⟨?_, by omega⟩, ?_⟩
  · exact Dvd.dvd.add (Dvd.dvd.mul_left (dvd_mul_left width nproc) _) (dvd_mul_left width n)
  · rintro m ⟨hdvd, hm⟩
    -- one more slot would be past `t`
    by_contra hlt
    have hsub : width ∣ m - (t / (nproc * width) * (nproc * width) + n * width) := by
      refine Nat.dvd_sub hdvd ?_
      exact Dvd.dvd.add (Dvd.dvd.mul_left (dvd_mul_left width nproc) _)
        (dvd_mul_left width n)
    have hwidth := Nat.le_of_dvd (by omega) hsub
    rw [add_mul] at hhi
    omega

/-- The literal width does no harm. -/
theorem mul_fifty (hliteral : nproc = 1 ∨ width = 50) (hn : n < nproc) :
    n * 50 = n * width := by
  rcases hliteral with rfl | rfl
  · obtain rfl : n = 0 := by omega
    simp
  · rfl

theorem inBound_eq_true (hp : slotPeriod nproc width = .ok p)
    (hstop : (n + 1) * width < 2 ^ 63) (h : inBound nproc width t n = .ok true) :
    n * width ≤ t % p ∧ t % p < (n + 1) * width := by
  obtain ⟨p', hp', h⟩ := Except.bind_eq_ok h
  obtain rfl := Except.ok.inj (hp.symm.trans hp')
  obtain ⟨next, hnext, h⟩ := Except.bind_eq_ok h
  obtain ⟨stop, hstop', h⟩ := Except.bind_eq_ok h
  obtain ⟨start, hstart, h⟩ := Except.bind_eq_ok h
  obtain ⟨rfl, -⟩ := toInt_eq_ok hnext
  obtain ⟨rfl, -⟩ := mulInt_eq_ok hstop'
  obtain ⟨rfl, -⟩ := mulInt_eq_ok hstart
  have hle : n * width ≤ (n + 1) * width := Nat.mul_le_mul_right width (Nat.le_succ n)
  have h1 : toUInt64 (((n : ℤ) + 1) * width) = (n + 1) * width := by
    rw [← toUInt64_natCast (n := (n + 1) * width) (by omega)]
    rfl
  have h2 : toUInt64 ((n : ℤ) * width) = n * width := by
    rw [← toUInt64_natCast (n := n * width) (by omega)]
    rfl
  have h := Except.ok.inj h
  rw [h1, h2, Bool.and_eq_true, decide_eq_true_iff, decide_eq_true_iff] at h
  exact h.symm

theorem inBound_eq {node next stop start : ℤ} (hp : slotPeriod nproc width = .ok p)
    (hnext : toInt (node + 1) = .ok next) (hstop : mulInt next width = .ok stop)
    (hstart : mulInt node width = .ok start) :
    inBound nproc width t node =
      .ok (decide (t % p < toUInt64 stop) && decide (toUInt64 start ≤ t % p)) := by
  unfold inBound
  rw [hp]
  rw [hnext]
  change (mulInt next width >>= _) = _
  rw [hstop]
  rw [hstart]
  rfl

/-- The node that has the slot of `t` finds `t` in its bounds. -/
theorem inBound_of_slot (hp : slotPeriod nproc width = .ok p) (hn : n + 1 < 2 ^ 31)
    (hstop : (n + 1) * width < 2 ^ 31) (hlo : n * width ≤ t % p)
    (hhi : t % p < (n + 1) * width) : inBound nproc width t n = .ok true := by
  have hnext : toInt ((n : ℤ) + 1) = .ok ((n + 1 : ℕ) : ℤ) := by
    rw [← toInt_natCast hn]
    rfl
  have hmul := mulInt_natCast (m := n + 1) (n := width) (fun _ _ => hstop) (by omega)
  have hmul' := mulInt_natCast (m := n) (n := width) (fun _ _ => by omega) (by omega)
  have hlo' : toUInt64 ((n * width : ℕ) : ℤ) ≤ t % p := by
    rw [toUInt64_natCast (by omega)]
    exact hlo
  have hhi' : t % p < toUInt64 (((n + 1) * width : ℕ) : ℤ) := by
    rw [toUInt64_natCast (by omega)]
    exact hhi
  rw [inBound_eq hp hnext hmul hmul', Except.ok.injEq, Bool.and_eq_true, decide_eq_true_iff,
    decide_eq_true_iff]
  exact ⟨hhi', hlo'⟩

theorem SlotExact.slotLaw (h : SlotExact nproc width t) (hn : 1 ≤ nproc) (hw : 1 ≤ width) :
    SlotLaw nproc width t := by
  have hpos : 0 < nproc * width := mul_pos hn hw
  have hp := slotPeriod_ok h.int h.unsigned hpos
  have hunsigned := h.unsigned
  have hnow := h.now
  -- offsets of nodes
  have hoff : ∀ n < nproc, n * 50 = n * width ∧ (n + 1) * width ≤ nproc * width ∧
      n * width < nproc * width ∧ n * 50 < 2 ^ 31 := by
    intro n hlt
    have h50 := mul_fifty h.literal hlt
    have hle : (n + 1) * width ≤ nproc * width := Nat.mul_le_mul_right width hlt
    rcases h.literal with rfl | rfl
    · omega
    · have := h.int (by omega) (by omega)
      omega
  have hmod : t / (nproc * width) * (nproc * width) % 2 ^ 32 =
      t / (nproc * width) * (nproc * width) := Nat.mod_eq_of_lt hnow
  have hlt : t < t / (nproc * width) * (nproc * width) + nproc * width :=
    Nat.lt_div_mul_add hpos
  refine ⟨⟨_, getNearestStartPeriod_eq hp t, ?_⟩, fun n hlt' => ?_, fun n hlt' hbound => ?_,
    fun n hlt' => ?_⟩
  · rw [hmod]
    exact isGreatest_mul_div hpos t
  · obtain ⟨h50, -, hr, hint⟩ := hoff n hlt'
    refine ⟨_, getNearestSlot_eq hp hunsigned hint t, ?_⟩
    rw [hmod, h50]
    exact isLeast_residue hr t
  · obtain ⟨h50, hstop, -, hint⟩ := hoff n hlt'
    obtain ⟨hlo, hhi⟩ := inBound_eq_true hp (by omega) hbound
    refine ⟨_, getCurrentStartSlot_eq hp hint t, ?_⟩
    rw [hmod, h50]
    exact isGreatest_slot hlo hhi
  · obtain ⟨h50, -, hr, hint⟩ := hoff n hlt'
    have hleast := isLeast_residue hr (t + 5)
    have hbounds : t + 5 < (t + 5) / (nproc * width) * (nproc * width) + nproc * width :=
      Nat.lt_div_mul_add hpos
    have hdiv := Nat.div_mul_le_self (t + 5) (nproc * width)
    refine ⟨_, _, getArbitLatency_eq hp hunsigned hint (by omega) rfl, hleast, ?_⟩
    rw [h50]
    rcases h.soon with hsoon | ⟨rfl, hodd⟩
    · rw [Nat.mod_eq_of_lt hsoon]
      split <;> split <;> omega
    · obtain rfl : n = 0 := by omega
      rw [one_mul] at hnow hbounds hdiv hunsigned hlt ⊢
      rw [zero_mul]
      by_cases hsoon : (t + 5) / width * width < 2 ^ 32
      · rw [Nat.mod_eq_of_lt hsoon]
        split <;> split <;> omega
      · -- the period of `t + 5` starts after `t`, and its 32-bit start is far behind
        have hafter : t < (t + 5) / width * width :=
          lt_of_mul_div_lt hw (dvd_mul_left width _) (by omega)
        have hwrap : (t + 5) / width * width % 2 ^ 32 = (t + 5) / width * width - 2 ^ 32 := by
          omega
        rw [hwrap]
        have hfar : ¬ t + 5 < (t + 5) / width * width - 2 ^ 32 + 0 := by omega
        have hnear : ¬ t + 5 < (t + 5) / width * width + 0 := by omega
        rw [if_neg hfar, if_neg hnear, if_pos (by omega)]
        omega

/-- If the law holds, the period is right: the start of the period of `t` and the slot of node 0
after `t` are. -/
theorem SlotLaw.period (h : SlotLaw nproc width t) (hn : 1 ≤ nproc) (hw : 1 ≤ width) :
    slotPeriod nproc width = .ok (nproc * width) ∧ nproc * width < 2 ^ 32 ∧
      t / (nproc * width) * (nproc * width) < 2 ^ 32 := by
  have hpos : 0 < nproc * width := mul_pos hn hw
  obtain ⟨s, hs, hgreatest⟩ := h.startPeriod
  have hexists : ∃ p, slotPeriod nproc width = .ok p := by
    obtain ⟨p, hp, -⟩ := Except.bind_eq_ok hs
    exact ⟨p, hp⟩
  obtain ⟨p, hp⟩ := hexists
  obtain ⟨hpeq, -, -⟩ := slotPeriod_eq_ok hp
  have hplt : p < 2 ^ 32 := by
    rw [hpeq]
    exact Nat.mod_lt _ (by decide)
  rw [getNearestStartPeriod_eq hp] at hs
  have hs := Except.ok.inj hs
  have hstart := hgreatest.unique (isGreatest_mul_div hpos t)
  obtain ⟨s₀, hs₀, hleast⟩ := h.nearestSlot 0 hn
  rw [← Nat.cast_zero, getNearestSlot_eq hp hplt (by decide)] at hs₀
  have hs₀ := Except.ok.inj hs₀
  have hslot := hleast.unique (isLeast_residue (by omega : 0 * width < nproc * width) t)
  have hle := Nat.div_mul_le_self t (nproc * width)
  rw [if_neg (by omega)] at hs₀
  rw [if_neg (by omega)] at hslot
  have hperiod : p = nproc * width := by omega
  refine ⟨hperiod ▸ hp, by omega, ?_⟩
  rw [← hstart, ← hs]
  exact Nat.mod_lt _ (by decide)

/-- The offset of a node that has a nearest slot is an `int`. -/
theorem SlotLaw.node_lt (h : SlotLaw nproc width t) (hn : n < nproc) :
    n * 50 < 2 ^ 31 := by
  obtain ⟨s, hs, -⟩ := h.nearestSlot n hn
  obtain ⟨start, -, hs⟩ := Except.bind_eq_ok hs
  obtain ⟨offset, hoffset, -⟩ := Except.bind_eq_ok hs
  have hrange := (toInt_eq_ok hoffset).2.2
  omega

/-- With another width than 50, the node after node 0 or the node that has the slot of `t` is
misplaced. -/
theorem SlotLaw.literal (h : SlotLaw nproc width t) (hn : 1 ≤ nproc) (hw : 1 ≤ width) :
    nproc = 1 ∨ width = 50 := by
  obtain ⟨hp, hunsigned, hnow⟩ := h.period hn hw
  have hpos : 0 < nproc * width := mul_pos hn hw
  have ht := Nat.div_add_mod' t (nproc * width)
  by_contra hne
  rw [not_or] at hne
  obtain ⟨h1, h50⟩ := hne
  by_cases hfirst : t % (nproc * width) < width
  · -- `t` is in the slot of node 0, and the slot of node 1 comes next
    obtain ⟨s, hs, hleast⟩ := h.nearestSlot 1 (by omega)
    have hlt : 1 * width < nproc * width := mul_lt_mul_of_pos_right (by omega) hw
    rw [← Nat.cast_one, getNearestSlot_eq hp hunsigned (by decide)] at hs
    have hs := Except.ok.inj hs
    have hslot := hleast.unique (isLeast_residue hlt t)
    rw [if_pos (by omega)] at hslot
    split at hs <;> omega
  · -- the slot of `t` belongs to a later node, which finds its own slot displaced
    obtain ⟨n, hn0, hlo, hhi⟩ : ∃ n, 1 ≤ n ∧ n * width ≤ t % (nproc * width) ∧
        t % (nproc * width) < (n + 1) * width := by
      refine ⟨t % (nproc * width) / width, Nat.div_pos (not_lt.mp hfirst) hw,
        Nat.div_mul_le_self _ _, ?_⟩
      rw [add_mul, one_mul]
      exact Nat.lt_div_mul_add hw
    have hlt : n < nproc := by
      by_contra hle
      have := Nat.mul_le_mul_right width (not_lt.mp hle)
      have := Nat.mod_lt t hpos
      omega
    have hint := h.node_lt hlt
    have hint' := h.node_lt (n := nproc - 1) (by omega)
    have hwidth : width < 2 ^ 31 := by
      by_contra hle
      have := mul_le_mul (show 2 ≤ nproc by omega) (not_lt.mp hle)
      omega
    have hperiod := (slotPeriod_eq_ok hp).2.2 (by omega) hwidth
    have hle : (n + 1) * width ≤ nproc * width := Nat.mul_le_mul_right width hlt
    obtain ⟨s, hs, hgreatest⟩ := h.startSlot n hlt (inBound_of_slot hp (by omega) (by omega) hlo hhi)
    rw [getCurrentStartSlot_eq hp hint] at hs
    have hs := Except.ok.inj hs
    have hslot := hgreatest.unique (isGreatest_slot hlo hhi)
    have heq : n * 50 = n * width := by omega
    exact h50 (Nat.eq_of_mul_eq_mul_left hn0 heq).symm

theorem SlotLaw.slotExact (h : SlotLaw nproc width t) (hn : 1 ≤ nproc) (hw : 1 ≤ width) :
    SlotExact nproc width t := by
  obtain ⟨hp, hunsigned, hnow⟩ := h.period hn hw
  refine ⟨(slotPeriod_eq_ok hp).2.2, hunsigned, h.literal hn hw, hnow, ?_⟩
  have hpos : 0 < nproc * width := mul_pos hn hw
  have hlt : t < t / (nproc * width) * (nproc * width) + nproc * width := Nat.lt_div_mul_add hpos
  by_contra hsoon
  rw [not_or] at hsoon
  obtain ⟨hwrap, hodd⟩ := hsoon
  -- the latency of node 0
  obtain ⟨s, latency, hlatency, hleast, hsum, -, -⟩ := h.arbitLatency 0 hn
  have hslot := hleast.unique (isLeast_residue (by omega : 0 * width < nproc * width) (t + 5))
  rw [Nat.cast_zero, ← Nat.cast_zero,
    getArbitLatency_eq hp hunsigned (by decide) (by omega) rfl] at hlatency
  have hlatency := Except.ok.inj hlatency
  have hdiv := Nat.div_mul_le_self (t + 5) (nproc * width)
  have hafter : t < (t + 5) / (nproc * width) * (nproc * width) :=
    lt_of_mul_div_lt hpos (dvd_mul_left _ _) (by omega)
  have hnext : (t + 5) / (nproc * width) * (nproc * width) < 2 ^ 33 := by
    by_cases hsmall : nproc * width < 5
    · omega
    · have hle : (t + 5) / (nproc * width) ≤ t / (nproc * width) + 1 := by
        rw [← Nat.add_div_right t hpos]
        exact Nat.div_le_div_right (by omega)
      have := Nat.mul_le_mul_right (nproc * width) hle
      rw [add_mul] at this
      omega
  have hmod : (t + 5) / (nproc * width) * (nproc * width) % 2 ^ 32 =
      (t + 5) / (nproc * width) * (nproc * width) - 2 ^ 32 := by
    omega
  have hfar : ¬ t + 5 < (t + 5) / (nproc * width) * (nproc * width) - 2 ^ 32 + 0 * 50 := by omega
  rw [hmod, if_neg hfar] at hlatency
  rw [if_neg (by omega)] at hslot
  have hexception : nproc * width + ((t + 5) / (nproc * width) * (nproc * width) - t) = 2 ^ 31 := by
    split at hlatency <;> omega
  rcases h.literal hn hw with rfl | rfl
  · rw [one_mul] at hexception
    exact hodd ⟨rfl, hexception⟩
  · -- `2 ^ 31` is 48 modulo 50
    omega

end

/-- **Slot arithmetic.**  The functions are exact at cycle `t`, for all nodes, exactly if nothing
overflows and the slots have the width that is written into the code. -/
theorem slot_law_iff_slotExact (nproc width t : ℕ) (hn : 1 ≤ nproc) (hw : 1 ≤ width) :
    SlotLaw nproc width t ↔ SlotExact nproc width t :=
  ⟨fun h => h.slotExact hn hw, fun h => h.slotLaw hn hw⟩

theorem slot_law_iff_slotExact_four_cores : SlotLaw 4 50 1234 :=
  (slot_law_iff_slotExact 4 50 1234 (by decide) (by decide)).mpr
    ⟨by decide, by decide, by decide, by decide, by decide⟩

/-- With the macros as they are: the period that starts at cycle 4294967400 is said to start at
cycle 104. -/
theorem start_period_wraps :
    getNearestStartPeriod 4 50 4294967400 = .ok 104 ∧ ¬ SlotLaw 4 50 4294967400 := by
  refine ⟨by decide, fun h => ?_⟩
  obtain ⟨s, hs, hgreatest⟩ := h.startPeriod
  rw [show getNearestStartPeriod 4 50 4294967400 = .ok 104 by decide] at hs
  obtain rfl := Except.ok.inj hs
  have hle := hgreatest.2 (show 4294967400 ∈ _ from ⟨by decide, le_rfl⟩)
  exact absurd hle (by decide)
