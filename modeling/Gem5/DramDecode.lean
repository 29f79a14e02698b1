/-
# DRAM address decoding

`DRAMCtrl::decodeAddr` (`src/mem/dram_ctrl.cc`): a burst has a rank, a bank and a row,
which are digits of its address.  The mappings differ in the place of the digits for
the column and the channel.  The parameters go through the checks of the constructor and
of `init`, and the address through those of `AddrRange::contains`.

A mapping has lower column digits, `stripeColumns` of them for the bursts of one
stripe, then the channel, and the upper column digits below the bank or above the
rank.  With the column a location has the digits of all bursts of the capacity of the
channels together, the channel apart, and this is what the range gives: it is not
longer, and the channel is a function of the other digits if the interleaving looks
at nothing above them (`channel_eq`).

The digits for the bank and the rank are stored in eight bits.  If the range reaches
more than 256 banks, different banks get the same number (`decodeAddr_overloads_row`).

* `DecodeParams`      — the parameters; `Accepted` and `PowersOfTwo` are the checks.
* `Decodable`         — what more is needed.
* `Layout`            — the digits cover the capacity.
-/
import Mathlib
import Gem5.TransitionSystem
import Gem5.AddrRangeMap

/-! ## Powers of two -/

theorem pos_of_two_pow {n : ℕ} (h : ∃ k, n = 2 ^ k) : 0 < n := by
  obtain ⟨k, rfl⟩ := h
  exact Nat.two_pow_pos k

theorem two_pow_dvd_of_le {m n : ℕ} (hm : ∃ k, m = 2 ^ k) (hn : ∃ k, n = 2 ^ k) (hle : m ≤ n) :
    m ∣ n := by
  obtain ⟨j, rfl⟩ := hm
  obtain ⟨k, rfl⟩ := hn
  exact pow_dvd_pow 2 ((Nat.pow_le_pow_iff_right (by decide)).mp hle)

theorem two_pow_of_dvd {m n : ℕ} (hn : ∃ k, n = 2 ^ k) (h : m ∣ n) : ∃ k, m = 2 ^ k := by
  obtain ⟨k, rfl⟩ := hn
  obtain ⟨j, -, hj⟩ := (Nat.dvd_prime_pow Nat.prime_two).mp h
  exact ⟨j, hj⟩

/-- Numbers that agree in their lower bits agree in every slice of these. -/
theorem slice_eq_of_mod_eq {x y l n m : ℕ} (h : x % 2 ^ m = y % 2 ^ m) (hle : l + n ≤ m) :
    x / 2 ^ l % 2 ^ n = y / 2 ^ l % 2 ^ n := by
  have hdvd : 2 ^ l * 2 ^ n ∣ 2 ^ m := by
    rw [← pow_add]
    exact pow_dvd_pow 2 hle
  have hmod : ∀ z, z / 2 ^ l % 2 ^ n = z % 2 ^ m % (2 ^ l * 2 ^ n) / 2 ^ l := by
    intro z
    rw [Nat.mod_mod_of_dvd z hdvd, Nat.mod_mul_right_div_self]
  rw [hmod x, hmod y, h]

/-- Numbers that agree below bit `g` and in the `m` bits from `g + n` on agree in a slice of `n` bits
that is below, or above and not higher than these; or at any place above, if they agree there. -/
theorem slice_eq_of_outside {x y l n g m : ℕ} (hlow : x % 2 ^ g = y % 2 ^ g)
    (hhigh : x / 2 ^ (g + n) % 2 ^ m = y / 2 ^ (g + n) % 2 ^ m)
    (hplace : l + n ≤ g ∨ g + n ≤ l ∧
      (l ≤ g + m ∨ x / 2 ^ (g + n) / 2 ^ m = y / 2 ^ (g + n) / 2 ^ m)) :
    x / 2 ^ l % 2 ^ n = y / 2 ^ l % 2 ^ n := by
  rcases hplace with hbelow | ⟨habove, htop⟩
  · exact slice_eq_of_mod_eq hlow hbelow
  · have hl : 2 ^ l = 2 ^ (g + n) * 2 ^ (l - (g + n)) := by
      rw [← pow_add, Nat.add_sub_cancel' habove]
    rw [hl, ← Nat.div_div_eq_div_mul, ← Nat.div_div_eq_div_mul]
    rcases htop with hle | htop
    · exact slice_eq_of_mod_eq hhigh (by omega)
    · rw [← Nat.div_add_mod (x / 2 ^ (g + n)) (2 ^ m), htop, hhigh, Nat.div_add_mod]

/-- Numbers of an interval that is not longer than the modulus. -/
theorem eq_of_mod_eq_of_mem {x y s e m : ℕ} (hx : s ≤ x ∧ x ≤ e) (hy : s ≤ y ∧ y ≤ e)
    (hlen : e - s < m) (h : x % m = y % m) : x = y := by
  have hxy := Nat.sub_mod_eq_zero_of_mod_eq h
  have hyx := Nat.sub_mod_eq_zero_of_mod_eq h.symm
  rw [Nat.mod_eq_of_lt (by omega)] at hxy hyx
  omega

/-! ## Parameters -/

/-- The mappings, named by their digits from the highest to the lowest. -/
inductive AddrMap
  | roRaBaChCo
  | roRaBaCoCh
  | roCoRaBaCh
  deriving DecidableEq, Repr

namespace AddrRange

/-- The shift of `granularity`, which is undefined if it is negative. -/
def granularityBits (r : AddrRange) : ℕ := r.intlvHighBit.toNat + 1 - r.intlvBits.toNat

/-- The bytes of a stripe. -/
def granularity (r : AddrRange) : ℕ := 2 ^ r.granularityBits

/-- The number of stripes, one for each channel. -/
def stripes (r : AddrRange) : ℕ := 2 ^ r.intlvBits.toNat

end AddrRange

/-- The logarithm, rounded up. -/
def ceilLog2 (n : ℕ) : ℕ := if n = 1 then 0 else Nat.log2 (n - 1) + 1

/-- The parameters that decoding reads, as 32-bit numbers. -/
structure DecodeParams where
  addrMapping : AddrMap
  burstSize : ℕ
  rowBufferSize : ℕ
  banksPerRank : ℕ
  ranksPerChannel : ℕ
  channels : ℕ
  cacheLineSize : ℕ
  range : AddrRange
  fits : burstSize < 2 ^ 32 ∧ rowBufferSize < 2 ^ 32 ∧ banksPerRank < 2 ^ 32 ∧
    ranksPerChannel < 2 ^ 32 ∧ channels < 2 ^ 32 := by decide

/-- Where a burst is. -/
structure DramLoc where
  rank : ℕ
  bank : ℕ
  row : ℕ
  deriving DecidableEq, Repr

namespace DecodeParams

variable (p : DecodeParams)

/-- The bursts of a row. -/
def columnsPerRowBuffer : ℕ := p.rowBufferSize / p.burstSize

/-- The bursts of a stripe. -/
def columnsPerStripe : ℕ :=
  if p.range.interleaved then p.range.granularity / p.burstSize % 2 ^ 32 else 1

/-- The bytes of the channel, rounded up to a power of two. -/
def capacity : ℕ := 2 ^ ceilLog2 p.range.size.toNat

/-- The rows of a bank, as a 32-bit number. -/
def rowsPerBank : ℕ :=
  p.capacity / (p.rowBufferSize * p.banksPerRank * p.ranksPerChannel % 2 ^ 32) % 2 ^ 32

/-- The checks of `init` for an interleaved range. -/
def InterleavingOk : Prop :=
  p.range.intlvBits.toNat ≤ p.range.intlvHighBit.toNat + 1 ∧ p.channels = p.range.stripes ∧
    match p.addrMapping with
    | .roRaBaChCo => p.rowBufferSize = p.range.granularity
    | _ => 1 ≤ p.columnsPerStripe ∧ p.cacheLineSize ≤ p.range.granularity ∧
        p.range.granularity ≤ p.rowBufferSize ∧ p.columnsPerStripe ≤ p.columnsPerRowBuffer

/-- The constructor and `init` return: its shift and its division are defined. -/
structure Accepted : Prop where
  size_ne : p.range.size.toNat ≠ 0
  size_le : p.range.size.toNat ≤ 2 ^ 63
  banks_ne : p.rowBufferSize * p.banksPerRank * p.ranksPerChannel % 2 ^ 32 ≠ 0
  interleaving : p.range.interleaved = true → p.InterleavingOk

/-- The sizes are powers of two, and there is a row for each bank. -/
structure PowersOfTwo : Prop where
  burst : ∃ k, p.burstSize = 2 ^ k
  rowBuffer : ∃ k, p.rowBufferSize = 2 ^ k
  banks : ∃ k, p.banksPerRank = 2 ^ k
  ranks : ∃ k, p.ranksPerChannel = 2 ^ k
  channels : p.channels = if p.range.interleaved then p.range.stripes else 1
  row_le : p.rowBufferSize * p.banksPerRank * p.ranksPerChannel ≤ p.capacity

/-! ## Decoding -/

/-- A division, which is undefined for 0. -/
def divide (a b : ℕ) : Except Abort ℕ := if b = 0 then .error .undefined else .ok (a / b)

/-- A remainder, which is undefined for 0. -/
def modulo (a b : ℕ) : Except Abort ℕ := if b = 0 then .error .undefined else .ok (a % b)

/-- `Bank::NO_ROW`. -/
def noRow : ℕ := 2 ^ 32 - 1

/-- The numbers are stored, and the assertions are made. -/
def locate (rank bank row : ℕ) : Except Abort DramLoc :=
  let rank := rank % 2 ^ 8
  let bank := bank % 2 ^ 8
  if rank < p.ranksPerChannel ∧ bank < p.banksPerRank ∧ row < p.rowsPerBank ∧ row < noRow then
    .ok ⟨rank, bank, row⟩
  else .error .assertion

/-- Take the digits from the address of a burst, the lowest first. -/
def decodeAddr (dramPktAddr : BitVec 64) : Except Abort DramLoc := do
  let addr ← divide dramPktAddr.toNat p.burstSize
  match p.addrMapping with
  | .roRaBaChCo =>
    let addr ← divide addr p.columnsPerRowBuffer
    let addr ← divide addr p.channels
    let bank ← modulo addr p.banksPerRank
    let addr ← divide addr p.banksPerRank
    let rank ← modulo addr p.ranksPerChannel
    let addr ← divide addr p.ranksPerChannel
    let row ← modulo addr p.rowsPerBank
    p.locate rank bank row
  | .roRaBaCoCh =>
    let addr ← divide addr p.columnsPerStripe
    let addr ← divide addr p.channels
    let addr ← divide addr (← divide p.columnsPerRowBuffer p.columnsPerStripe)
    let bank ← modulo addr p.banksPerRank
    let addr ← divide addr p.banksPerRank
    let rank ← modulo addr p.ranksPerChannel
    let addr ← divide addr p.ranksPerChannel
    let row ← modulo addr p.rowsPerBank
    p.locate rank bank row
  | .roCoRaBaCh =>
    let addr ← divide addr p.columnsPerStripe
    let addr ← divide addr p.channels
    let bank ← modulo addr p.banksPerRank
    let addr ← divide addr p.banksPerRank
    let rank ← modulo addr p.ranksPerChannel
    let addr ← divide addr p.ranksPerChannel
    let addr ← divide addr (← divide p.columnsPerRowBuffer p.columnsPerStripe)
    let row ← modulo addr p.rowsPerBank
    p.locate rank bank row

/-- The location depends on the burst only. -/
theorem decodeAddr_congr {x y : BitVec 64} (h : x.toNat / p.burstSize = y.toNat / p.burstSize) :
    p.decodeAddr x = p.decodeAddr y := by
  unfold decodeAddr divide
  rw [h]

/-- A burst of the controller's own range, by its address. -/
def OwnBurst (x : BitVec 64) : Prop := p.range.Holds x ∧ x.toNat % p.burstSize = 0

instance (x : BitVec 64) : Decidable (p.OwnBurst x) :=
  inferInstanceAs (Decidable (p.range.contains x = .ok true ∧ _))

/-! ## The digits -/

/-- The number of lower column digits, below the channel. -/
def stripeColumns : ℕ :=
  match p.addrMapping with
  | .roRaBaChCo => p.columnsPerRowBuffer
  | _ => p.columnsPerStripe

/-- The number of upper column digits. -/
def upperColumns : ℕ := p.columnsPerRowBuffer / p.stripeColumns

/-- The number of the stripe row: what is above the channel. -/
def aboveChannel (x : ℕ) : ℕ := x / p.burstSize / p.stripeColumns / p.channels

/-- The digit of the upper columns. -/
def upperColumn (x : ℕ) : ℕ :=
  match p.addrMapping with
  | .roCoRaBaCh => p.aboveChannel x / p.banksPerRank / p.ranksPerChannel % p.upperColumns
  | _ => p.aboveChannel x % p.upperColumns

/-- The rank, the bank and the row before they are stored. -/
def digits (x : ℕ) : DramLoc :=
  let q := p.aboveChannel x
  match p.addrMapping with
  | .roCoRaBaCh =>
    { bank := q % p.banksPerRank
      rank := q / p.banksPerRank % p.ranksPerChannel
      row := q / p.banksPerRank / p.ranksPerChannel / p.upperColumns % p.rowsPerBank }
  | _ =>
    { bank := q / p.upperColumns % p.banksPerRank
      rank := q / p.upperColumns / p.banksPerRank % p.ranksPerChannel
      row := q / p.upperColumns / p.banksPerRank / p.ranksPerChannel % p.rowsPerBank }

/-- The column of a burst. -/
def column (x : ℕ) : ℕ :=
  x / p.burstSize % p.stripeColumns + p.stripeColumns * p.upperColumn x

/-- How many digits there are above the channel. -/
def rowSpan : ℕ := p.upperColumns * (p.banksPerRank * (p.ranksPerChannel * p.rowsPerBank))

/-- The burst fits into a row, and the digits of the range into the types for them; the range is not
longer than the capacity, so that its bursts differ in their digits; and a hashed interleaving looks
at no bits above the capacity, or at none that change. -/
structure Decodable : Prop where
  burst_le : p.burstSize ≤ p.rowBufferSize
  rows_lt : p.capacity / (p.rowBufferSize * p.banksPerRank * p.ranksPerChannel) < 2 ^ 32
  digits_lt : ∀ x, p.OwnBurst x → (p.digits x.toNat).bank < 256 ∧ (p.digits x.toNat).rank < 256
  distinct : ∀ x y, p.OwnBurst x → p.OwnBurst y →
    x.toNat % (p.channels * p.capacity) = y.toNat % (p.channels * p.capacity) → x = y
  hash : p.range.hashed = true →
    2 ^ (p.range.xorHighBit.toNat + 1) ≤ p.channels * p.capacity ∨
      p.range._start.toNat / (p.channels * p.capacity) =
        p.range._end.toNat / (p.channels * p.capacity)

/-- The digits are there, and cover the capacity of all channels. -/
structure Layout : Prop where
  burst_pos : 0 < p.burstSize
  stripe_pos : 0 < p.stripeColumns
  upper_pos : 0 < p.upperColumns
  columns_eq : p.stripeColumns * p.upperColumns = p.columnsPerRowBuffer
  channels_pos : 0 < p.channels
  banks_pos : 0 < p.banksPerRank
  ranks_pos : 0 < p.ranksPerChannel
  rows_pos : 0 < p.rowsPerBank
  total : p.burstSize * p.stripeColumns * p.channels * p.rowSpan = p.channels * p.capacity

variable {p}

theorem divide_eq {a b : ℕ} (hb : 0 < b) : divide a b = .ok (a / b) := if_neg hb.ne'

theorem modulo_eq {a b : ℕ} (hb : 0 < b) : modulo a b = .ok (a % b) := if_neg hb.ne'

namespace Layout

theorem digits_lt (h : p.Layout) (x : ℕ) : (p.digits x).rank < p.ranksPerChannel ∧
    (p.digits x).bank < p.banksPerRank ∧ (p.digits x).row < p.rowsPerBank := by
  unfold digits
  split <;> exact ⟨Nat.mod_lt _ h.ranks_pos, Nat.mod_lt _ h.banks_pos, Nat.mod_lt _ h.rows_pos⟩

/-- The assertions hold for digits that fit into eight bits. -/
theorem locate (h : p.Layout) {x : ℕ} {d : DramLoc} (hd : p.digits x = d)
    (hfit : d.bank < 256 ∧ d.rank < 256) : p.locate d.rank d.bank d.row = .ok d := by
  obtain ⟨hrank, hbank, hrow⟩ := h.digits_lt x
  have hrows : p.rowsPerBank < 2 ^ 32 := Nat.mod_lt _ (by decide)
  rw [hd] at hrank hbank hrow
  rw [DecodeParams.locate, Nat.mod_eq_of_lt (b := 2 ^ 8) hfit.2,
    Nat.mod_eq_of_lt (b := 2 ^ 8) hfit.1, if_pos]
  rw [noRow]
  omega

/-- The code computes the digits. -/
theorem decodeAddr (h : p.Layout) {x : BitVec 64}
    (hfit : (p.digits x.toNat).bank < 256 ∧ (p.digits x.toNat).rank < 256) :
    p.decodeAddr x = .ok (p.digits x.toNat) := by
  have hstripe := h.stripe_pos
  have hupper := h.upper_pos
  have hlocate := h.locate rfl hfit
  rw [← hlocate, DecodeParams.decodeAddr, divide_eq h.burst_pos]
  unfold digits upperColumns aboveChannel stripeColumns
  unfold upperColumns stripeColumns at hupper
  unfold stripeColumns at hstripe
  split
  · rename_i hmap
    simp only [hmap] at hstripe ⊢
    simp only [divide_eq hstripe, divide_eq h.channels_pos, divide_eq h.banks_pos,
      divide_eq h.ranks_pos, modulo_eq h.banks_pos, modulo_eq h.ranks_pos, modulo_eq h.rows_pos,
      Nat.div_self hstripe, Nat.div_one, bind, Except.bind]
  · rename_i hmap
    simp only [hmap] at hstripe hupper ⊢
    simp only [divide_eq hstripe, divide_eq hupper, divide_eq h.channels_pos, divide_eq h.banks_pos,
      divide_eq h.ranks_pos, modulo_eq h.banks_pos, modulo_eq h.ranks_pos, modulo_eq h.rows_pos,
      bind, Except.bind]
  · rename_i hmap
    simp only [hmap] at hstripe hupper ⊢
    simp only [divide_eq hstripe, divide_eq hupper, divide_eq h.channels_pos, divide_eq h.banks_pos,
      divide_eq h.ranks_pos, modulo_eq h.banks_pos, modulo_eq h.ranks_pos, modulo_eq h.rows_pos,
      bind, Except.bind]

theorem upperColumn_lt (h : p.Layout) (x : ℕ) : p.upperColumn x < p.upperColumns := by
  unfold upperColumn
  split <;> exact Nat.mod_lt _ h.upper_pos

theorem column_lt (h : p.Layout) (x : ℕ) : p.column x < p.columnsPerRowBuffer := by
  have hlow := Nat.mod_lt (x / p.burstSize) h.stripe_pos
  calc p.column x < p.stripeColumns + p.stripeColumns * p.upperColumn x :=
        Nat.add_lt_add_right hlow _
    _ = p.stripeColumns * (p.upperColumn x + 1) := by ring
    _ ≤ p.stripeColumns * p.upperColumns := Nat.mul_le_mul_left _ (h.upperColumn_lt x)
    _ = p.columnsPerRowBuffer := h.columns_eq

/-- The column and the location are all digits but that of the channel. -/
theorem digits_inj (h : p.Layout) {x y : ℕ} (hcolumn : p.column x = p.column y)
    (hdigits : p.digits x = p.digits y) :
    x / p.burstSize % p.stripeColumns = y / p.burstSize % p.stripeColumns ∧
      p.aboveChannel x % p.rowSpan = p.aboveChannel y % p.rowSpan := by
  have hlow : x / p.burstSize % p.stripeColumns = y / p.burstSize % p.stripeColumns := by
    have := congrArg (· % p.stripeColumns) hcolumn
    simpa [column] using this
  have hupper : p.upperColumn x = p.upperColumn y := by
    rw [column, hlow] at hcolumn
    exact Nat.eq_of_mul_eq_mul_left h.stripe_pos (add_left_cancel hcolumn)
  refine ⟨hlow, ?_⟩
  unfold digits at hdigits
  unfold upperColumn at hupper
  unfold rowSpan
  split at hdigits
  · rename_i hmap
    simp only [hmap, DramLoc.mk.injEq] at hdigits hupper
    obtain ⟨hrank, hbank, hrow⟩ := hdigits
    rw [show p.upperColumns * (p.banksPerRank * (p.ranksPerChannel * p.rowsPerBank)) =
      p.banksPerRank * (p.ranksPerChannel * (p.upperColumns * p.rowsPerBank)) by ring]
    simp only [Nat.mod_mul, hrank, hbank, hrow, hupper]
  · rename_i hmap
    simp only [DramLoc.mk.injEq] at hdigits
    obtain ⟨hrank, hbank, hrow⟩ := hdigits
    have hupper : p.aboveChannel x % p.upperColumns = p.aboveChannel y % p.upperColumns := by
      split at hupper
      · exact absurd (by assumption) hmap
      · exact hupper
    simp only [Nat.mod_mul, hrank, hbank, hrow, hupper]

end Layout

/-! ### From the checks to the digits -/

section Checks

variable (hacc : p.Accepted) (hpow : p.PowersOfTwo) (h : p.Decodable)

include hpow h in
theorem burst_mul_columns : p.burstSize * p.columnsPerRowBuffer = p.rowBufferSize :=
  Nat.mul_div_cancel' (two_pow_dvd_of_le hpow.burst hpow.rowBuffer h.burst_le)

include hpow h in
theorem columns_two_pow : ∃ k, p.columnsPerRowBuffer = 2 ^ k :=
  two_pow_of_dvd hpow.rowBuffer (Dvd.intro_left _ (burst_mul_columns hpow h))

include hacc hpow h in
/-- The bursts of a stripe are the lower columns. -/
theorem burst_mul_stripeColumns (hint : p.range.interleaved = true) :
    p.burstSize * p.stripeColumns = p.range.granularity := by
  obtain ⟨-, -, hmap⟩ := hacc.interleaving hint
  unfold stripeColumns
  split at hmap
  · rw [← hmap]
    exact burst_mul_columns hpow h
  · obtain ⟨hone, -, hle, -⟩ := hmap
    have hfit : p.range.granularity / p.burstSize < 2 ^ 32 :=
      (Nat.div_le_self _ _).trans_lt (hle.trans_lt p.fits.2.1)
    have hstripe : p.columnsPerStripe = p.range.granularity / p.burstSize := by
      rw [columnsPerStripe, if_pos hint, Nat.mod_eq_of_lt hfit]
    have hburst : p.burstSize ≤ p.range.granularity := by
      rw [hstripe] at hone
      exact ((Nat.le_div_iff_mul_le (pos_of_two_pow hpow.burst)).mp hone).trans_eq' (one_mul _)
    rw [hstripe]
    exact Nat.mul_div_cancel' (two_pow_dvd_of_le hpow.burst ⟨_, rfl⟩ hburst)

include hacc hpow h in
theorem stripeColumns_dvd : 0 < p.stripeColumns ∧ p.stripeColumns ∣ p.columnsPerRowBuffer := by
  have hcolumns := columns_two_pow hpow h
  by_cases hint : p.range.interleaved = true
  · have hstripe := burst_mul_stripeColumns hacc hpow h hint
    have hpos : 0 < p.stripeColumns := by
      apply pos_of_ne_zero
      intro hzero
      rw [hzero, mul_zero] at hstripe
      exact (Nat.two_pow_pos _).ne hstripe
    refine ⟨hpos, ?_⟩
    apply two_pow_dvd_of_le (two_pow_of_dvd ⟨_, rfl⟩ (Dvd.intro_left _ hstripe)) hcolumns
    obtain ⟨-, -, hmap⟩ := hacc.interleaving hint
    unfold stripeColumns
    split at hmap
    · exact le_rfl
    · exact hmap.2.2.2
  · have hone : p.columnsPerStripe = 1 := if_neg hint
    unfold stripeColumns
    split
    · exact ⟨pos_of_two_pow hcolumns, dvd_rfl⟩
    · rw [hone]
      exact ⟨one_pos, one_dvd _⟩

include hacc hpow h in
/-- Nothing is cut off in the number of rows. -/
theorem row_mul_rowsPerBank :
    p.rowBufferSize * p.banksPerRank * p.ranksPerChannel * p.rowsPerBank = p.capacity := by
  have hproduct : ∃ k, p.rowBufferSize * p.banksPerRank * p.ranksPerChannel = 2 ^ k := by
    obtain ⟨i, hi⟩ := hpow.rowBuffer
    obtain ⟨j, hj⟩ := hpow.banks
    obtain ⟨k, hk⟩ := hpow.ranks
    exact ⟨i + j + k, by rw [hi, hj, hk, pow_add, pow_add]⟩
  have hlt : p.rowBufferSize * p.banksPerRank * p.ranksPerChannel < 2 ^ 32 := by
    by_contra hge
    have hdvd := two_pow_dvd_of_le ⟨32, rfl⟩ hproduct (not_lt.mp hge)
    exact hacc.banks_ne (Nat.mod_eq_zero_of_dvd hdvd)
  rw [rowsPerBank, Nat.mod_eq_of_lt hlt, Nat.mod_eq_of_lt h.rows_lt]
  exact Nat.mul_div_cancel' (two_pow_dvd_of_le hproduct ⟨_, rfl⟩ hpow.row_le)

include hacc hpow h in
theorem layout : p.Layout := by
  obtain ⟨hstripe, hdvd⟩ := stripeColumns_dvd hacc hpow h
  have hcolumns_eq : p.stripeColumns * p.upperColumns = p.columnsPerRowBuffer :=
    Nat.mul_div_cancel' hdvd
  have hrow := burst_mul_columns hpow h
  have hcapacity := row_mul_rowsPerBank hacc hpow h
  refine ⟨pos_of_two_pow hpow.burst, hstripe, ?_, hcolumns_eq, ?_, pos_of_two_pow hpow.banks,
    pos_of_two_pow hpow.ranks, ?_, ?_⟩
  · exact Nat.div_pos (Nat.le_of_dvd (pos_of_two_pow (columns_two_pow hpow h)) hdvd) hstripe
  · rw [hpow.channels]
    split
    · exact Nat.two_pow_pos _
    · exact one_pos
  · apply pos_of_ne_zero
    intro hzero
    rw [hzero, mul_zero] at hcapacity
    exact (Nat.two_pow_pos _).ne hcapacity
  · rw [← hcapacity, ← hrow, ← hcolumns_eq, rowSpan]
    ring

end Checks

end DecodeParams

/-! ## The interleaving -/

namespace AddrRange

variable {r : AddrRange} {a v : BitVec 64}

theorem Holds.mem (h : r.Holds a) : r._start.toNat ≤ a.toNat ∧ a.toNat ≤ r._end.toNat := by
  obtain ⟨hstart, hend⟩ := h.in_range
  exact ⟨BitVec.le_def.mp hstart, BitVec.le_def.mp hend⟩

/-- The slice of `n` bits with the given highest one. -/
theorem toNat_of_bits {high n : ℕ} (h : bits a high (high - n + 1) = .ok v) :
    v.toNat = a.toNat / 2 ^ (high + 1 - n) % 2 ^ n := by
  rw [bits] at h
  split at h
  · cases h
    have hlast : ((high : ℤ) - n + 1).toNat = high + 1 - n := by omega
    have hwidth : ((high : ℤ) - (high - n + 1) + 1).toNat = n := by omega
    have hlt : 2 ^ n - 1 < 2 ^ 64 := by
      have : 2 ^ n ≤ 2 ^ 64 := Nat.pow_le_pow_right (by decide) (by omega)
      omega
    rw [hlast, hwidth, BitVec.toNat_and, BitVec.toNat_ushiftRight, BitVec.toNat_ofNat,
      Nat.mod_eq_of_lt hlt, Nat.shiftRight_eq_div_pow, Nat.and_two_pow_sub_one_eq_mod]
  · cases h

theorem le_of_bits {high n : ℕ} (h : bits a high (high - n + 1) = .ok v) : n ≤ high + 1 := by
  rw [bits] at h
  split at h
  · omega
  · cases h

/-- The slice that is hashed in. -/
def hashSlice (r : AddrRange) (a : ℕ) : ℕ :=
  a / 2 ^ (r.xorHighBit.toNat + 1 - r.intlvBits.toNat) % 2 ^ r.intlvBits.toNat

/-- Two addresses of a range have the same interleaving bits if the same is hashed in. -/
theorem Holds.same_stripe {x y : BitVec 64} (hx : r.Holds x) (hy : r.Holds y)
    (hint : r.interleaved = true)
    (hhash : r.hashed = true → r.intlvBits.toNat ≤ r.xorHighBit.toNat + 1 →
      r.hashSlice x.toNat = r.hashSlice y.toNat) :
    x.toNat / r.granularity % r.stripes = y.toNat / r.granularity % r.stripes := by
  have hx := ((holds_of_interleaved hint).mp hx).2
  have hy := ((holds_of_interleaved hint).mp hy).2
  unfold select at hx hy
  split at hx
  · rename_i hhashed
    rw [if_pos hhashed] at hy
    obtain ⟨x₁, hx₁, hx⟩ := Except.bind_eq_ok hx
    obtain ⟨x₂, hx₂, hx⟩ := Except.bind_eq_ok hx
    obtain ⟨y₁, hy₁, hy⟩ := Except.bind_eq_ok hy
    obtain ⟨y₂, hy₂, hy⟩ := Except.bind_eq_ok hy
    have hsame : x₂ = y₂ := by
      apply BitVec.eq_of_toNat_eq
      rw [toNat_of_bits hx₂, toNat_of_bits hy₂]
      exact hhash hhashed (le_of_bits hx₂)
    have hxor : x₁ ^^^ x₂ = y₁ ^^^ x₂ := by
      rw [Except.ok.inj hx, hsame]
      exact (Except.ok.inj hy).symm
    have heq : x₁ = y₁ := (BitVec.xor_left_inj x₂).mp hxor
    have := congrArg BitVec.toNat heq
    rwa [toNat_of_bits hx₁, toNat_of_bits hy₁] at this
  · rename_i hhashed
    rw [if_neg hhashed] at hy
    rw [granularity, granularityBits, stripes, ← toNat_of_bits hx, ← toNat_of_bits hy]

end AddrRange

namespace DecodeParams

variable {p : DecodeParams}

theorem aboveChannel_eq (x : ℕ) :
    p.aboveChannel x = x / (p.burstSize * p.stripeColumns * p.channels) := by
  rw [aboveChannel, Nat.div_div_eq_div_mul, Nat.div_div_eq_div_mul, ← mul_assoc]

/-- Bursts with the same column and the same location are in the same stripe: what is hashed in
is equal, below the stripe, above it, or above the capacity. -/
theorem channel_eq (hacc : p.Accepted) (hpow : p.PowersOfTwo) (h : p.Decodable) {x y : BitVec 64}
    (hx : p.range.Holds x) (hy : p.range.Holds y) (hint : p.range.interleaved = true)
    (hlow : x.toNat % p.range.granularity = y.toNat % p.range.granularity)
    (hhigh : p.aboveChannel x.toNat % p.rowSpan = p.aboveChannel y.toNat % p.rowSpan) :
    x.toNat / p.range.granularity % p.range.stripes =
      y.toNat / p.range.granularity % p.range.stripes := by
  apply hx.same_stripe hy hint
  intro hhashed hbits
  have hlayout := layout hacc hpow h
  have hchannels : p.channels = p.range.stripes := (hacc.interleaving hint).2.1
  have htotal : p.range.granularity * p.range.stripes * p.rowSpan = p.channels * p.capacity := by
    rw [← burst_mul_stripeColumns hacc hpow h hint, ← hchannels]
    exact hlayout.total
  obtain ⟨m, hm⟩ : ∃ m, p.rowSpan = 2 ^ m := by
    apply two_pow_of_dvd _ (Dvd.intro_left _ htotal)
    exact ⟨p.range.intlvBits.toNat + ceilLog2 p.range.size.toNat, by
      rw [hchannels, pow_add]
      rfl⟩
  rw [aboveChannel_eq, aboveChannel_eq, burst_mul_stripeColumns hacc hpow h hint, hchannels,
    hm] at hhigh
  unfold AddrRange.granularity AddrRange.stripes at hhigh htotal
  rw [← pow_add] at hhigh htotal
  apply slice_eq_of_outside hlow hhigh
  have hplace := p.range.xor_apart (by simpa [AddrRange.interleaved] using hint)
    (by simpa [AddrRange.hashed, hint] using hhashed)
  have hhighBit := (hacc.interleaving hint).1
  have hgran : p.range.granularityBits = p.range.intlvHighBit.toNat + 1 - p.range.intlvBits.toNat :=
    rfl
  split at hplace
  · rename_i hlt
    rw [BitVec.lt_def] at hlt
    right
    refine ⟨by omega, ?_⟩
    rw [hm] at htotal
    rcases h.hash hhashed with hle | htop
    · rw [← htotal, ← pow_add] at hle
      have := (Nat.pow_le_pow_iff_right (by decide)).mp hle
      omega
    · right
      rw [Nat.div_div_eq_div_mul, Nat.div_div_eq_div_mul, htotal]
      have htop' : ∀ z, p.range.Holds z → z.toNat / (p.channels * p.capacity) =
          p.range._start.toNat / (p.channels * p.capacity) := by
        intro z hz
        obtain ⟨hstart, hend⟩ := hz.mem
        exact le_antisymm ((Nat.div_le_div_right hend).trans_eq htop.symm)
          (Nat.div_le_div_right hstart)
      rw [htop' x hx, htop' y hy]
  · rename_i hlt
    rw [BitVec.lt_def] at hlt
    omega

/-- The address of a burst, up to the capacity of all channels. -/
theorem mod_total_eq (hacc : p.Accepted) (hpow : p.PowersOfTwo) (h : p.Decodable) {x y : BitVec 64}
    (hx : p.OwnBurst x) (hy : p.OwnBurst y)
    (hlow : x.toNat / p.burstSize % p.stripeColumns = y.toNat / p.burstSize % p.stripeColumns)
    (hhigh : p.aboveChannel x.toNat % p.rowSpan = p.aboveChannel y.toNat % p.rowSpan) :
    x.toNat % (p.channels * p.capacity) = y.toNat % (p.channels * p.capacity) := by
  have hlayout := layout hacc hpow h
  have hstripe : x.toNat % (p.burstSize * p.stripeColumns) =
      y.toNat % (p.burstSize * p.stripeColumns) := by
    rw [Nat.mod_mul, Nat.mod_mul, hx.2, hy.2, hlow]
  have hchannel : x.toNat / (p.burstSize * p.stripeColumns) % p.channels =
      y.toNat / (p.burstSize * p.stripeColumns) % p.channels := by
    by_cases hint : p.range.interleaved = true
    · have hgran := burst_mul_stripeColumns hacc hpow h hint
      rw [hgran] at hstripe ⊢
      rw [(hacc.interleaving hint).2.1]
      exact channel_eq hacc hpow h hx.1 hy.1 hint hstripe hhigh
    · rw [hpow.channels, if_neg hint, Nat.mod_one, Nat.mod_one]
  rw [aboveChannel_eq, aboveChannel_eq] at hhigh
  have hrow : x.toNat % (p.burstSize * p.stripeColumns * p.channels) =
      y.toNat % (p.burstSize * p.stripeColumns * p.channels) := by
    rw [Nat.mod_mul (a := p.burstSize * p.stripeColumns), hstripe, hchannel, ← Nat.mod_mul]
  rw [← hlayout.total, Nat.mod_mul, hrow, hhigh, ← Nat.mod_mul]

/-- **Decoding is faithful**: every burst of the range has a rank, a bank and a row of the
controller, and a row of a bank has no more bursts than it has columns. -/
theorem decodeAddr_faithful (p : DecodeParams) (hacc : p.Accepted) (hpow : p.PowersOfTwo)
    (h : p.Decodable) :
    (∀ x, p.OwnBurst x → ∃ d, p.decodeAddr x = .ok d ∧ d.rank < p.ranksPerChannel ∧
      d.bank < p.banksPerRank ∧ d.row < p.rowsPerBank) ∧
    ∀ (d : DramLoc) (bursts : Finset (BitVec 64)),
      (∀ x ∈ bursts, p.OwnBurst x ∧ p.decodeAddr x = .ok d) →
      bursts.card ≤ p.columnsPerRowBuffer := by
  have hl := layout hacc hpow h
  constructor
  · intro x hx
    exact ⟨_, hl.decodeAddr (h.digits_lt x hx), hl.digits_lt x.toNat⟩
  · intro d bursts hbursts
    rw [← Finset.card_range p.columnsPerRowBuffer]
    apply Finset.card_le_card_of_injOn fun x => p.column x.toNat
    · intro x _
      exact Finset.mem_coe.mpr (Finset.mem_range.mpr (hl.column_lt x.toNat))
    · intro x hx y hy hcolumn
      obtain ⟨hown, hdx⟩ := hbursts x hx
      obtain ⟨hown', hdy⟩ := hbursts y hy
      have hdigits : p.digits x.toNat = p.digits y.toNat := by
        rw [hl.decodeAddr (h.digits_lt x hown)] at hdx
        rw [hl.decodeAddr (h.digits_lt y hown')] at hdy
        exact (Except.ok.inj hdx).trans (Except.ok.inj hdy).symm
      obtain ⟨hlow, hhigh⟩ := hl.digits_inj hcolumn hdigits
      exact h.distinct x y hown hown' (mod_total_eq hacc hpow h hown hown' hlow hhigh)

end DecodeParams

/-! ## Examples -/

/-- One of two channels with a hashed interleaving of 128 bytes and 128 kB each. -/
def hashedPair : DecodeParams where
  addrMapping := .roRaBaCoCh
  burstSize := 64
  rowBufferSize := 1024
  banksPerRank := 8
  ranksPerChannel := 2
  channels := 2
  cacheLineSize := 64
  range :=
    { _start := 0x80000000
      _end := 0x8003ffff
      intlvHighBit := 7
      xorHighBit := 15
      intlvBits := 1
      intlvMatch := 1 }

/-- A controller with 512 banks of one row of two bursts. -/
def manyBanks : DecodeParams where
  addrMapping := .roRaBaChCo
  burstSize := 64
  rowBufferSize := 128
  banksPerRank := 512
  ranksPerChannel := 1
  channels := 1
  cacheLineSize := 64
  range := { AddrRange.single 0 with _end := 0xffff }

/-- One of two channels with one row of two bursts; the bit above the capacity is hashed in, and
changes in the middle of the range. -/
def hashedAbove : DecodeParams where
  addrMapping := .roRaBaChCo
  burstSize := 64
  rowBufferSize := 128
  banksPerRank := 1
  ranksPerChannel := 1
  channels := 2
  cacheLineSize := 64
  range :=
    { _start := 0x80
      _end := 0x17f
      intlvHighBit := 7
      xorHighBit := 8
      intlvBits := 1
      intlvMatch := 1 }

namespace DecodeParams

theorem hashedPair_accepted : hashedPair.Accepted where
  size_ne := by decide +kernel
  size_le := by decide +kernel
  banks_ne := by decide +kernel
  interleaving _ := ⟨by decide, by decide +kernel, by
    show 1 ≤ hashedPair.columnsPerStripe ∧ _ ∧ _ ∧ _
    decide +kernel⟩

theorem hashedPair_powersOfTwo : hashedPair.PowersOfTwo where
  burst := ⟨6, rfl⟩
  rowBuffer := ⟨10, rfl⟩
  banks := ⟨3, rfl⟩
  ranks := ⟨1, rfl⟩
  channels := by decide +kernel
  row_le := by decide +kernel

/-- The parameters alone: at most 256 banks and ranks, and a range within the capacity. -/
theorem decodable_of_le {p : DecodeParams} (hpow : p.PowersOfTwo)
    (hburst : p.burstSize ≤ p.rowBufferSize) (hbanks : p.banksPerRank ≤ 256)
    (hranks : p.ranksPerChannel ≤ 256)
    (hrows : p.capacity / (p.rowBufferSize * p.banksPerRank * p.ranksPerChannel) < 2 ^ 32)
    (hlength : p.range._end.toNat - p.range._start.toNat < p.channels * p.capacity)
    (hhash : p.range.hashed = true →
      2 ^ (p.range.xorHighBit.toNat + 1) ≤ p.channels * p.capacity) : p.Decodable where
  burst_le := hburst
  rows_lt := hrows
  digits_lt := by
    intro x _
    have hbank : ∀ y, y % p.banksPerRank < 256 :=
      fun y => (Nat.mod_lt y (pos_of_two_pow hpow.banks)).trans_le hbanks
    have hrank : ∀ y, y % p.ranksPerChannel < 256 :=
      fun y => (Nat.mod_lt y (pos_of_two_pow hpow.ranks)).trans_le hranks
    unfold digits
    split <;> exact ⟨hbank _, hrank _⟩
  distinct := fun x y hx hy hmod =>
    BitVec.eq_of_toNat_eq (eq_of_mod_eq_of_mem hx.1.mem hy.1.mem hlength hmod)
  hash := fun hhashed => .inl (hhash hhashed)

theorem decodeAddr_faithful_hashedPair :
    hashedPair.OwnBurst 0x80000080 ∧
      ∃ d, hashedPair.decodeAddr 0x80000080 = .ok d ∧ d.rank < 2 ∧ d.bank < 8 ∧
        d.row < hashedPair.rowsPerBank := by
  have hown : hashedPair.OwnBurst 0x80000080 := by decide +kernel
  have hdec : hashedPair.Decodable :=
    decodable_of_le hashedPair_powersOfTwo (by decide) (by decide) (by decide) (by decide +kernel)
      (by decide +kernel) fun _ => by decide +kernel
  exact ⟨hown, (decodeAddr_faithful hashedPair hashedPair_accepted hashedPair_powersOfTwo
    hdec).1 _ hown⟩

/-- Three bursts that get the same place. -/
def ThreeBursts (p : DecodeParams) (x y z : BitVec 64) : Prop :=
  (∀ b ∈ ({x, y, z} : Finset (BitVec 64)), p.OwnBurst b ∧ p.decodeAddr b = .ok ⟨0, 0, 0⟩) ∧
    ({x, y, z} : Finset (BitVec 64)).card = 3

theorem threeBursts {p : DecodeParams} {x y z : BitVec 64}
    (hown : p.OwnBurst x ∧ p.OwnBurst y ∧ p.OwnBurst z)
    (hx : p.decodeAddr x = .ok ⟨0, 0, 0⟩) (hy : p.decodeAddr y = .ok ⟨0, 0, 0⟩)
    (hz : p.decodeAddr z = .ok ⟨0, 0, 0⟩) (hne : x ≠ y ∧ x ≠ z ∧ y ≠ z) : p.ThreeBursts x y z := by
  obtain ⟨hxy, hxz, hyz⟩ := hne
  refine ⟨?_, Finset.card_eq_three.mpr ⟨x, y, z, hxy, hxz, hyz, rfl⟩⟩
  intro b hb
  simp only [Finset.mem_insert, Finset.mem_singleton] at hb
  rcases hb with rfl | rfl | rfl
  · exact ⟨hown.1, hx⟩
  · exact ⟨hown.2.1, hy⟩
  · exact ⟨hown.2.2, hz⟩

/-- Banks 0 and 256 get the same number, so that a row of two columns gets bursts of both; and
both stripes of the range are in the channel, so that its row gets the bursts of both. -/
theorem decodeAddr_overloads_row :
    (manyBanks.Accepted ∧ manyBanks.PowersOfTwo ∧ manyBanks.columnsPerRowBuffer = 2 ∧
      manyBanks.ThreeBursts 0x0 0x40 0x8000) ∧
    hashedAbove.Accepted ∧ hashedAbove.PowersOfTwo ∧ hashedAbove.columnsPerRowBuffer = 2 ∧
      hashedAbove.ThreeBursts 0x80 0xc0 0x100 := by
  refine ⟨⟨?_, ?_, by decide +kernel, ?_⟩, ?_, ?_, by decide +kernel, ?_⟩
  · exact ⟨by decide +kernel, by decide +kernel, by decide +kernel, fun h => absurd h (by decide)⟩
  · exact ⟨⟨6, rfl⟩, ⟨7, rfl⟩, ⟨9, rfl⟩, ⟨0, rfl⟩, by decide +kernel, by decide +kernel⟩
  · exact threeBursts (by decide +kernel) (by decide +kernel) (by decide +kernel)
      (by decide +kernel) (by decide)
  · exact ⟨by decide +kernel, by decide +kernel, by decide +kernel,
      fun _ => ⟨by decide, by decide +kernel, rfl⟩⟩
  · exact ⟨⟨6, rfl⟩, ⟨7, rfl⟩, ⟨0, rfl⟩, ⟨0, rfl⟩, by decide +kernel, by decide +kernel⟩
  · exact threeBursts (by decide +kernel) (by decide +kernel) (by decide +kernel)
      (by decide +kernel) (by decide)

end DecodeParams
