/-
# Regions in chunks

`ChunkGenerator` (`src/base/chunk_generator.hh`) cuts a region into the parts that lie in one
aligned chunk each, for a loop

    for (ChunkGenerator gen(start, size, chunk); !gen.done(); gen.next())

Addresses have 64 bits and sizes 32, and the end of the region may be the end of the address
space, where `nextAddr` wraps to 0.

* `ChunkGenerator.create`, `next` — as in the source.
* `ChunkGenerator.visits`         — the generator in each round of the loop.
* `ChunkGenerator.Ready`          — what holds at the test of the loop.
-/
import Mathlib
import Gem5.TransitionSystem

structure ChunkGenerator where
  curAddr : BitVec 64
  nextAddr : BitVec 64
  curSize : BitVec 32
  sizeLeft : BitVec 32
  startAddr : BitVec 64
  chunkSize : BitVec 32

namespace ChunkGenerator

def leastSigBit (n : BitVec 32) : BitVec 32 := n &&& ~~~(n - 1)

def isPowerOf2 (n : BitVec 32) : Bool := n != 0 && leastSigBit n == n

def roundUp (val : BitVec 64) (align : BitVec 32) : BitVec 64 :=
  let mask := align.setWidth 64 - 1
  (val + mask) &&& ~~~mask

/-- `std::min` of two unsigned numbers. -/
def stdMin (a b : BitVec 32) : BitVec 32 := if b < a then b else a

/-- The address after the first chunk. -/
def firstNext (startAddr : BitVec 64) (totalSize chunkSize : BitVec 32) : BitVec 64 :=
  if chunkSize = 0 then startAddr + totalSize.setWidth 64
  else
    let nextAddr := roundUp startAddr chunkSize
    if startAddr = nextAddr then nextAddr + chunkSize.setWidth 64 else nextAddr

/-- The constructor. -/
def create (startAddr : BitVec 64) (totalSize chunkSize : BitVec 32) :
    Except Abort ChunkGenerator :=
  if chunkSize = 0 ∨ isPowerOf2 chunkSize then
    let nextAddr := firstNext startAddr totalSize chunkSize
    let leftInChunk := (nextAddr - startAddr).setWidth 32
    let curSize := stdMin totalSize leftInChunk
    .ok { curAddr := startAddr, nextAddr, curSize, sizeLeft := totalSize - curSize, startAddr,
          chunkSize }
  else .error .assertion

variable (g : ChunkGenerator)

def complete : BitVec 32 := (g.curAddr - g.startAddr).setWidth 32

def done : Bool := g.curSize == 0

def last : Bool := g.sizeLeft == 0

def next : ChunkGenerator :=
  if g.sizeLeft = 0 then { g with curSize := 0 }
  else
    let curSize := stdMin g.sizeLeft g.chunkSize
    { g with
      curAddr := g.nextAddr, curSize
      sizeLeft := g.sizeLeft - curSize
      nextAddr := g.nextAddr + curSize.setWidth 64 }

/-- The rounds of the loop; `none` if they are more than the fuel allows. -/
def visits : ℕ → ChunkGenerator → Option (List ChunkGenerator)
  | 0, _ => none
  | fuel + 1, g => if g.done then some [] else (visits fuel g.next).map (g :: ·)

/-- The bytes of some rounds. -/
def total (l : List ChunkGenerator) : ℕ := (l.map (·.curSize.toNat)).sum

/-- At the test of the loop: the next chunk starts after the current one, if there is one. -/
structure Ready : Prop where
  fits : g.curAddr.toNat + g.curSize.toNat + g.sizeLeft.toNat ≤ 2 ^ 64
  after : g.startAddr.toNat ≤ g.curAddr.toNat
  small : g.curAddr.toNat + g.curSize.toNat + g.sizeLeft.toNat < g.startAddr.toNat + 2 ^ 32
  next : g.sizeLeft ≠ 0 → g.nextAddr.toNat = g.curAddr.toNat + g.curSize.toNat ∧
    g.chunkSize ≠ 0 ∧ g.chunkSize.toNat ∣ g.curAddr.toNat + g.curSize.toNat
  window : g.chunkSize ≠ 0 →
    g.curAddr.toNat % g.chunkSize.toNat + g.curSize.toNat ≤ g.chunkSize.toNat
  left : g.curSize = 0 → g.sizeLeft = 0

/-- A round of the loop, where `before` bytes have been covered. -/
structure Covers (start : BitVec 64) (before : ℕ) (final : Prop) : Prop where
  addr : g.curAddr.toNat = start.toNat + before
  size : 0 < g.curSize.toNat
  complete : g.complete.toNat = before
  last : g.last ↔ final
  window : g.chunkSize ≠ 0 →
    g.curAddr.toNat % g.chunkSize.toNat + g.curSize.toNat ≤ g.chunkSize.toNat

variable {g}

theorem toNat_stdMin (a b : BitVec 32) : (stdMin a b).toNat = min a.toNat b.toNat := by
  unfold stdMin
  split_ifs with h
  · have hlt := BitVec.lt_def.mp h
    omega
  · have hle := mt BitVec.lt_def.mpr h
    omega

theorem toNat_sub_stdMin (a b : BitVec 32) : (a - stdMin a b).toNat = a.toNat - b.toNat := by
  have hmin := toNat_stdMin a b
  rw [BitVec.toNat_sub_of_le (BitVec.le_def.mpr (by omega))]
  omega

theorem toNat_pos {a : BitVec 32} (h : a ≠ 0) : 0 < a.toNat := by
  apply pos_of_ne_zero
  intro h0
  exact h (BitVec.eq_of_toNat_eq h0)

/-! ## The loop -/

theorem total_cons (l : List ChunkGenerator) : total (g :: l) = g.curSize.toNat + total l := by
  rw [total, List.map_cons, List.sum_cons, total]

theorem next_chunkSize : g.next.chunkSize = g.chunkSize ∧ g.next.startAddr = g.startAddr := by
  unfold ChunkGenerator.next
  split_ifs <;> exact ⟨rfl, rfl⟩

theorem Ready.advance (h : g.Ready) : g.next.Ready ∧
    g.next.curSize.toNat + g.next.sizeLeft.toNat = g.sizeLeft.toNat ∧
    (g.sizeLeft ≠ 0 → g.next.curAddr.toNat = g.curAddr.toNat + g.curSize.toNat) := by
  obtain ⟨hfits, hafter, hsmall, hnext, hwindow, -⟩ := h
  unfold ChunkGenerator.next
  by_cases hleft : g.sizeLeft = 0
  · rw [if_pos hleft]
    refine ⟨⟨?_, hafter, ?_, absurd hleft, ?_, fun _ => hleft⟩, ?_, absurd hleft⟩
    · exact (Nat.add_le_add_right (Nat.le_add_right _ _) _).trans hfits
    · exact (Nat.add_le_add_right (Nat.le_add_right _ _) _).trans_lt hsmall
    · intro hchunk
      exact (Nat.mod_lt _ (toNat_pos hchunk)).le
    · exact zero_add _
  · obtain ⟨haddr, hchunk, hdvd⟩ := hnext hleft
    have hpos := toNat_pos hchunk
    have hmin := toNat_stdMin g.sizeLeft g.chunkSize
    have hsub := toNat_sub_stdMin g.sizeLeft g.chunkSize
    have hleft' := toNat_pos hleft
    rw [if_neg hleft]
    refine ⟨⟨?_, ?_, ?_, ?_, ?_, ?_⟩, ?_, fun _ => haddr⟩ <;> dsimp only
    · omega
    · omega
    · omega
    · -- there is more: this chunk is whole, and the next one does not start at the end of memory
      intro hmore
      have hmore := toNat_pos hmore
      have hsize : (stdMin g.sizeLeft g.chunkSize).toNat = g.chunkSize.toNat := by omega
      rw [BitVec.toNat_add, BitVec.toNat_setWidth, hsize, haddr]
      refine ⟨by omega, hchunk, ?_⟩
      exact (Nat.dvd_add_right hdvd).mpr dvd_rfl
    · intro _
      rw [haddr, Nat.mod_eq_zero_of_dvd hdvd]
      omega
    · intro hzero
      rw [hzero] at hmin
      change 0 = _ at hmin
      omega
    · omega

theorem Ready.toNat_complete (h : g.Ready) :
    g.complete.toNat = g.curAddr.toNat - g.startAddr.toNat := by
  have hafter := h.after
  have hsmall := h.small
  rw [complete, BitVec.toNat_setWidth, BitVec.toNat_sub_of_le (BitVec.le_def.mpr hafter)]
  omega

theorem Ready.visits (h : g.Ready) (fuel : ℕ) (hfuel : g.curSize.toNat + g.sizeLeft.toNat < fuel) :
    ∃ l, g.visits fuel = some l ∧
      total l = g.curSize.toNat + g.sizeLeft.toNat ∧
      (g.sizeLeft = 0 → l.length ≤ 1) ∧
      ∀ pre c post, l = pre ++ c :: post → c.chunkSize = g.chunkSize ∧
        c.Covers g.startAddr
          (g.curAddr.toNat - g.startAddr.toNat + total pre) (post = []) := by
  induction fuel generalizing g with
  | zero => exact absurd hfuel (Nat.not_lt_zero _)
  | succ fuel ih =>
    rw [ChunkGenerator.visits]
    by_cases hdone : g.curSize = 0
    · rw [done, hdone, h.left hdone]
      refine ⟨[], rfl, rfl, fun _ => Nat.zero_le 1, ?_⟩
      intro pre c post hl
      exact absurd hl.symm (by simp)
    · obtain ⟨hready, hsum, haddr⟩ := h.advance
      have hpos := toNat_pos hdone
      obtain ⟨l, hl, hsizes, hone, hcovers⟩ := ih hready (by omega)
      -- the rest is empty exactly if nothing is left
      have hlast : l = [] ↔ g.sizeLeft = 0 := by
        constructor
        · rintro rfl
          by_contra hleft
          exact (toNat_pos hleft).ne (hsizes.trans hsum)
        · intro hleft
          cases l with
          | nil => rfl
          | cons c post =>
            have hsize := (hcovers [] c post rfl).2.size
            rw [total_cons, hsum, hleft] at hsizes
            exact absurd hsizes (Nat.add_pos_left hsize _).ne'
      rw [done, beq_eq_false_iff_ne.mpr hdone, hl]
      refine ⟨g :: l, rfl, ?_, ?_, ?_⟩
      · rw [total_cons, hsizes, hsum]
      · intro hleft
        rw [hlast.mpr hleft]
        exact le_refl 1
      · intro pre c post hsplit
        cases pre with
        | nil =>
          cases hsplit
          have hafter := h.after
          refine ⟨rfl, ⟨?_, hpos, h.toNat_complete, ?_, h.window⟩⟩
          · change _ = _ + (_ + 0)
            omega
          · rw [hlast, last, beq_iff_eq]
        | cons p pre =>
          cases hsplit
          obtain ⟨hsize, hcover⟩ := hcovers pre c post rfl
          have hleft := mt hlast.mpr (by simp)
          have hbefore : g.next.curAddr.toNat - g.next.startAddr.toNat = g.curAddr.toNat -
              g.startAddr.toNat + g.curSize.toNat := by
            have hafter := h.after
            rw [haddr hleft, next_chunkSize.2]
            omega
          rw [next_chunkSize.1] at hsize
          rw [hbefore, next_chunkSize.2, add_assoc, ← total_cons] at hcover
          exact ⟨hsize, hcover⟩

/-! ## The first chunk -/

theorem toNat_and_not {x m : BitVec 64} {k : ℕ} (hm : m.toNat = 2 ^ k - 1) :
    (x &&& ~~~m).toNat = x.toNat - x.toNat % 2 ^ k := by
  have hshift : x &&& ~~~m = (x >>> k) <<< k := by
    apply BitVec.eq_of_getLsbD_eq
    intro i hi
    have hbit : m.getLsbD i = decide (i < k) := by
      rw [BitVec.getLsbD, hm, Nat.testBit_two_pow_sub_one]
    rw [BitVec.getLsbD_and, BitVec.getLsbD_not, hbit, BitVec.getLsbD_shiftLeft,
      BitVec.getLsbD_ushiftRight]
    by_cases hik : i < k
    · simp [hik]
    · simp [hik, hi, Nat.add_sub_cancel' (Nat.le_of_not_lt hik)]
  have hdiv := Nat.div_add_mod' x.toNat (2 ^ k)
  have hlt : x.toNat / 2 ^ k * 2 ^ k < 2 ^ 64 := (Nat.div_mul_le_self _ _).trans_lt x.isLt
  rw [hshift, BitVec.toNat_shiftLeft, BitVec.toNat_ushiftRight, Nat.shiftLeft_eq,
    Nat.shiftRight_eq_div_pow, Nat.mod_eq_of_lt hlt]
  omega

/-- The length of the first chunk, if the region is long enough. -/
def firstSize (start : BitVec 64) (size chunk : BitVec 32) : ℕ :=
  if chunk = 0 then size.toNat else chunk.toNat - start.toNat % chunk.toNat

theorem toNat_roundUp (start : BitVec 64) {chunk : BitVec 32} (hzero : chunk ≠ 0) {k : ℕ}
    (hk : chunk.toNat = 2 ^ k) (hdvd : chunk.toNat ∣ 2 ^ 64) :
    (roundUp start chunk).toNat = (start.toNat + (chunk.toNat - 1)) % 2 ^ 64 -
      (start.toNat + (chunk.toNat - 1)) % chunk.toNat := by
  have hpos := toNat_pos hzero
  have hlt := chunk.isLt
  have hmask : (chunk.setWidth 64 - 1).toNat = chunk.toNat - 1 := by
    rw [BitVec.toNat_sub, BitVec.toNat_setWidth]
    change (2 ^ 64 - 1 + _) % 2 ^ 64 = _
    omega
  rw [roundUp, toNat_and_not (hmask.trans (by rw [hk])), BitVec.toNat_add, hmask, ← hk,
    Nat.mod_mod_of_dvd _ hdvd]

/-- `roundUp` wraps together with the end of the first chunk. -/
theorem firstNext_eq (start : BitVec 64) (size : BitVec 32) {chunk : BitVec 32}
    (hchunk : chunk = 0 ∨ ∃ k, chunk.toNat = 2 ^ k) :
    firstNext start size chunk = start + BitVec.ofNat 64 (firstSize start size chunk) := by
  unfold firstNext firstSize
  by_cases hzero : chunk = 0
  · rw [if_pos hzero, if_pos hzero, BitVec.ofNat_toNat]
  · obtain ⟨k, hk⟩ := hchunk.resolve_left hzero
    have hpos := toNat_pos hzero
    have hlt := chunk.isLt
    have hk32 : k < 32 := (Nat.pow_lt_pow_iff_right one_lt_two).mp (hk ▸ hlt)
    have hdvd : chunk.toNat ∣ 2 ^ 64 := hk ▸ pow_dvd_pow 2 (by omega)
    have hround := toNat_roundUp start hzero hk hdvd
    -- the chunk of `start` is the last one of the address space, or there is another
    have hend : start.toNat - start.toNat % chunk.toNat + chunk.toNat = 2 ^ 64 ∨
        start.toNat - start.toNat % chunk.toNat + chunk.toNat + chunk.toNat ≤ 2 ^ 64 := by
      obtain ⟨n, hn⟩ := hdvd
      have hdiv := Nat.div_add_mod start.toNat chunk.toNat
      have hquot : start.toNat / chunk.toNat < n := Nat.div_lt_of_lt_mul (hn ▸ start.isLt)
      rcases eq_or_lt_of_le (Nat.succ_le_of_lt hquot) with heq | hlt
      · rw [hn, ← heq, Nat.mul_succ]
        omega
      · have hle := Nat.mul_le_mul_left chunk.toNat (Nat.succ_le_of_lt hlt)
        rw [Nat.mul_succ, Nat.mul_succ, ← hn] at hle
        omega
    have hmod : (start.toNat + (chunk.toNat - 1)) % chunk.toNat =
        (start.toNat % chunk.toNat + (chunk.toNat - 1)) % chunk.toNat := (Nat.mod_add_mod ..).symm
    have hrem := Nat.mod_lt start.toNat hpos
    have hle := Nat.mod_le start.toNat chunk.toNat
    rw [hmod] at hround
    rw [if_neg hzero, if_neg hzero]
    apply BitVec.eq_of_toNat_eq
    rw [BitVec.toNat_add, BitVec.toNat_ofNat]
    generalize start.toNat % chunk.toNat = r at *
    by_cases haligned : r = 0
    · rw [haligned, zero_add, Nat.mod_eq_of_lt (Nat.sub_one_lt hpos.ne')] at hround
      have hsame : start = roundUp start chunk := by
        apply BitVec.eq_of_toNat_eq
        omega
      rw [if_pos hsame, ← hsame, BitVec.toNat_add, BitVec.toNat_setWidth]
      omega
    · have hsmall : (r - 1) % chunk.toNat = r - 1 := Nat.mod_eq_of_lt (by omega)
      rw [show r + (chunk.toNat - 1) = r - 1 + chunk.toNat by omega, Nat.add_mod_right,
        hsmall] at hround
      have hne : start ≠ roundUp start chunk := by
        intro hsame
        rw [← hsame] at hround
        omega
      rw [if_neg hne]
      omega

theorem ready_create (start : BitVec 64) {size chunk : BitVec 32}
    (hfit : start.toNat + size.toNat ≤ 2 ^ 64) (hchunk : chunk = 0 ∨ ∃ k, chunk.toNat = 2 ^ k) :
    ∃ g, create start size chunk = .ok g ∧ g.Ready ∧ g.curAddr = start ∧ g.startAddr = start ∧
      g.chunkSize = chunk ∧ g.curSize.toNat + g.sizeLeft.toNat = size.toNat := by
  have hpass : chunk = 0 ∨ isPowerOf2 chunk := by
    apply hchunk.imp_right
    rintro ⟨k, hk⟩
    have hk32 : k < 32 := (Nat.pow_lt_pow_iff_right one_lt_two).mp (hk ▸ chunk.isLt)
    obtain rfl : chunk = BitVec.ofNat 32 (2 ^ k) := BitVec.eq_of_toNat_eq (by
      rw [hk, BitVec.toNat_ofNat, Nat.mod_eq_of_lt (Nat.pow_lt_pow_right one_lt_two hk32)])
    interval_cases k <;> decide
  have hsmall : firstSize start size chunk < 2 ^ 32 := by
    unfold firstSize
    split_ifs
    · exact size.isLt
    · exact (Nat.sub_le _ _).trans_lt chunk.isLt
  have hnext := firstNext_eq start size hchunk
  have hleft : ((firstNext start size chunk - start).setWidth 32).toNat =
      firstSize start size chunk := by
    rw [hnext, BitVec.add_comm, BitVec.add_sub_cancel, BitVec.toNat_setWidth, BitVec.toNat_ofNat]
    omega
  have hmin := toNat_stdMin size ((firstNext start size chunk - start).setWidth 32)
  have hsub := toNat_sub_stdMin size ((firstNext start size chunk - start).setWidth 32)
  rw [hleft] at hmin hsub
  refine ⟨_, if_pos hpass, ⟨?_, le_rfl, ?_, ?_, ?_, ?_⟩, rfl, rfl, rfl, ?_⟩ <;> dsimp only
  · omega
  · have := size.isLt
    omega
  · -- the region is longer than its first chunk
    intro hmore
    have hmore := toNat_pos hmore
    have hzero : chunk ≠ 0 := by
      rintro rfl
      exact absurd (hsub ▸ hmore) (Nat.sub_self _).not_gt
    have hpos := toNat_pos hzero
    have hrem := Nat.mod_lt start.toNat hpos
    have hdiv := Nat.div_add_mod start.toNat chunk.toNat
    have hnat := congrArg BitVec.toNat hnext
    rw [BitVec.toNat_add, BitVec.toNat_ofNat] at hnat
    refine ⟨by omega, hzero, start.toNat / chunk.toNat + 1, ?_⟩
    rw [firstSize, if_neg hzero] at hmin hsub
    rw [Nat.mul_succ]
    omega
  · intro hzero
    have hrem := Nat.mod_lt start.toNat (toNat_pos hzero)
    rw [firstSize, if_neg hzero] at hmin
    omega
  · intro hnone
    have hfirst : firstSize start size chunk = size.toNat ∨ 0 < firstSize start size chunk := by
      by_cases hzero : chunk = 0
      · exact .inl (if_pos hzero)
      · rw [firstSize, if_neg hzero]
        exact .inr (Nat.sub_pos_of_lt (Nat.mod_lt _ (toNat_pos hzero)))
    apply BitVec.eq_of_toNat_eq
    rw [hnone] at hmin
    change 0 = _ at hmin
    change _ = 0
    omega
  · omega

/-- **The chunks cover the region.** -/
theorem chunks_cover_region (start : BitVec 64) (size chunk : BitVec 32)
    (hfit : start.toNat + size.toNat ≤ 2 ^ 64) (hchunk : chunk = 0 ∨ ∃ k, chunk.toNat = 2 ^ k) :
    ∃ g l, create start size chunk = .ok g ∧ g.visits (size.toNat + 1) = some l ∧
      total l = size.toNat ∧ (chunk = 0 → l.length ≤ 1) ∧
      ∀ pre c post, l = pre ++ c :: post → c.chunkSize = chunk ∧
        c.Covers start (total pre) (post = []) := by
  obtain ⟨g, hg, hready, haddr, rfl, rfl, hsize⟩ := ready_create start hfit hchunk
  obtain ⟨l, hl, hsum, hone, hcovers⟩ := hready.visits (size.toNat + 1) (by omega)
  refine ⟨g, l, hg, hl, hsum.trans hsize, ?_, ?_⟩
  · intro hzero
    apply hone
    by_contra hleft
    exact (hready.next hleft).2.1 hzero
  · intro pre c post hsplit
    have hcover := hcovers pre c post hsplit
    rwa [haddr, Nat.sub_self, zero_add] at hcover

/-- The last 7 bytes of the address space in chunks of 4. -/
theorem chunks_cover_region_top :
    ∃ g l, create 0xfffffffffffffff9 7 4 = .ok g ∧ g.visits 8 = some l ∧
      total l = 7 ∧ l.map (·.curSize) = [3, 4] ∧
      ∀ pre c post, l = pre ++ c :: post → c.chunkSize = 4 ∧
        c.Covers 0xfffffffffffffff9 (total pre) (post = []) := by
  obtain ⟨g, l, hg, hl, hsum, -, hcovers⟩ :=
    chunks_cover_region 0xfffffffffffffff9 7 4 (by decide +kernel) (.inr ⟨2, by decide⟩)
  refine ⟨g, l, hg, hl, hsum, ?_, hcovers⟩
  obtain rfl := Except.ok.inj hg
  obtain rfl := Option.some.inj hl
  decide +kernel

end ChunkGenerator
