/-
# Prefixes of bit vectors

The masks that keep the first bits of a word, counted from the most significant
one, and keys that agree on their first bits.

* `prefixMask w n`        — the mask of the first `n` of `w` bits.
* `maskWidth`             — how many bits a mask keeps.
* `Agree n k k'`          — the first `n` bits are the same.
* `and_prefixMask_eq_iff` — masking is comparing the first bits.
-/
import Mathlib

variable {w n m : ℕ} {k k' k'' : BitVec w}

/-- The mask of the first `n` bits. -/
def prefixMask (w n : ℕ) : BitVec w := BitVec.allOnes w <<< (w - n)

/-- The number of bits that are set. -/
def maskWidth (k : BitVec w) : ℕ := ((Finset.range w).filter fun i => k.getMsbD i = true).card

/-- The first `n` bits are the same. -/
def Agree (n : ℕ) (k k' : BitVec w) : Prop := ∀ i < n, k.getMsbD i = k'.getMsbD i

theorem getMsbD_prefixMask (h : n ≤ w) (i : ℕ) : (prefixMask w n).getMsbD i = decide (i < n) := by
  unfold prefixMask
  rw [BitVec.getMsbD_shiftLeft, BitVec.getMsbD_allOnes]
  exact decide_eq_decide.mpr (by omega)

theorem maskWidth_prefixMask (h : n ≤ w) : maskWidth (prefixMask w n) = n := by
  have hfilter : ((Finset.range w).filter fun i => (prefixMask w n).getMsbD i = true) =
      Finset.range n := by
    ext i
    rw [Finset.mem_filter, getMsbD_prefixMask h, decide_eq_true_iff, Finset.mem_range,
      Finset.mem_range]
    omega
  unfold maskWidth
  rw [hfilter, Finset.card_range]

theorem prefixMask_zero : prefixMask w 0 = 0 := by
  refine BitVec.eq_of_getMsbD_eq fun i _ => ?_
  rw [getMsbD_prefixMask (Nat.zero_le w)]
  simp

theorem maskWidth_le (k : BitVec w) : maskWidth k ≤ w := by
  unfold maskWidth
  exact (Finset.card_filter_le _ _).trans_eq (Finset.card_range w)

theorem prefixMask_inj (hn : n ≤ w) (hm : m ≤ w) : prefixMask w n = prefixMask w m ↔ n = m := by
  constructor
  · intro h
    rw [← maskWidth_prefixMask hn, h, maskWidth_prefixMask hm]
  · rintro rfl
    rfl

theorem Agree.symm (h : Agree n k k') : Agree n k' k := fun i hi => (h i hi).symm

theorem Agree.trans (h : Agree n k k') (h' : Agree n k' k'') : Agree n k k'' :=
  fun i hi => (h i hi).trans (h' i hi)

theorem Agree.mono (h : Agree n k k') (hle : m ≤ n) : Agree m k k' :=
  fun i hi => h i (hi.trans_le hle)

theorem and_prefixMask_eq_iff (h : n ≤ w) :
    k &&& prefixMask w n = k' &&& prefixMask w n ↔ Agree n k k' := by
  constructor
  · intro heq i hi
    have hbit := congrArg (fun x => x.getMsbD i) heq
    simpa [BitVec.getMsbD_and, getMsbD_prefixMask h, hi] using hbit
  · intro hagree
    refine BitVec.eq_of_getMsbD_eq fun i hi => ?_
    rw [BitVec.getMsbD_and, BitVec.getMsbD_and, getMsbD_prefixMask h]
    by_cases hin : i < n
    · rw [hagree i hin]
    · rw [decide_eq_false hin, Bool.and_false, Bool.and_false]

theorem prefixMask_and_eq_left_iff (hn : n ≤ w) (hm : m ≤ w) :
    prefixMask w n &&& prefixMask w m = prefixMask w n ↔ n ≤ m := by
  constructor
  · intro heq
    by_contra hlt
    have hbit := congrArg (fun x => x.getMsbD m) heq
    simp only [BitVec.getMsbD_and, getMsbD_prefixMask hn, getMsbD_prefixMask hm] at hbit
    rw [decide_eq_true (by omega : m < n), decide_eq_false (lt_irrefl m)] at hbit
    cases hbit
  · intro hle
    refine BitVec.eq_of_getMsbD_eq fun i hi => ?_
    rw [BitVec.getMsbD_and, getMsbD_prefixMask hn, getMsbD_prefixMask hm, ← Bool.decide_and]
    exact decide_eq_decide.mpr (by omega)
