/-
# Counting in dyadic blocks

The block `n` of layer `i` is the set of the numbers with `x / 2 ^ i = n`.  Two
neighbouring blocks make one of the next layer, so the members of a finite set
above a number `r` can be counted on the way from `r` to a block that holds the
whole set: whenever the way comes from a left half, the right half is counted.

* `blockCount` — the members of a set in a block.
* `laterCount` — the members above `r` in the block of `r`.
* `SameBut`    — two sets that differ at one number at most.
-/
import Mathlib

/-! ## Blocks -/

variable (live : Finset ℕ)

/-- How many members of the set are in block `n` of layer `i`. -/
def blockCount (i n : ℕ) : ℕ := (live.filter fun x => x / 2 ^ i = n).card

/-- How many members of the set are above `r` in its block of layer `i`. -/
def laterCount (r i : ℕ) : ℕ :=
  (live.filter fun x => r < x ∧ x / 2 ^ i = r / 2 ^ i).card

/-- The sets agree but for one number. -/
def SameBut (r : ℕ) (live live' : Finset ℕ) : Prop := ∀ x, x ≠ r → (x ∈ live' ↔ x ∈ live)

theorem div_pow_succ (x i : ℕ) : x / 2 ^ (i + 1) = x / 2 ^ i / 2 := by
  rw [pow_succ, Nat.div_div_eq_div_mul]

theorem blockCount_zero (n : ℕ) :
    blockCount live 0 n = if n ∈ live then 1 else 0 := by
  simp only [blockCount, pow_zero, Nat.div_one, Finset.filter_eq']
  split <;> simp

/-- A block is made of two blocks of the layer below. -/
theorem blockCount_succ (i n : ℕ) :
    blockCount live (i + 1) n = blockCount live i (2 * n) + blockCount live i (2 * n + 1) := by
  unfold blockCount
  rw [← Finset.card_union_of_disjoint]
  · congr 1
    ext x
    simp only [Finset.mem_filter, Finset.mem_union, div_pow_succ]
    constructor
    · rintro ⟨hx, hn⟩
      have : x / 2 ^ i = 2 * n ∨ x / 2 ^ i = 2 * n + 1 := by omega
      exact this.imp (⟨hx, ·⟩) (⟨hx, ·⟩)
    · rintro (⟨hx, hn⟩ | ⟨hx, hn⟩)
      · exact ⟨hx, by omega⟩
      · exact ⟨hx, by omega⟩
  · rw [Finset.disjoint_filter]
    intro x _ h1 h2
    omega

/-- A block of layer `i` has `2 ^ i` numbers. -/
theorem blockCount_le (i n : ℕ) : blockCount live i n ≤ 2 ^ i := by
  induction i generalizing n with
  | zero =>
    rw [blockCount_zero]
    split <;> simp
  | succ i ih =>
    have h1 := ih (2 * n)
    have h2 := ih (2 * n + 1)
    rw [blockCount_succ, pow_succ]
    omega

theorem blockCount_eq_zero_iff {live : Finset ℕ} {i n : ℕ} :
    blockCount live i n = 0 ↔ ∀ x ∈ live, x / 2 ^ i ≠ n := by
  rw [blockCount, Finset.card_eq_zero, Finset.filter_eq_empty_iff]

theorem SameBut.blockCount_eq {r : ℕ} {live live' : Finset ℕ} (h : SameBut r live live') {i n : ℕ}
    (hn : r / 2 ^ i ≠ n) : blockCount live' i n = blockCount live i n := by
  unfold blockCount
  congr 1
  ext x
  simp only [Finset.mem_filter]
  refine and_congr_left fun hx => h x ?_
  rintro rfl
  exact hn hx

/-! ## Above a number -/

@[simp]
theorem laterCount_zero (r : ℕ) : laterCount live r 0 = 0 := by
  rw [laterCount, Finset.card_eq_zero, Finset.filter_eq_empty_iff]
  intro x _
  simp only [pow_zero]
  omega

/-- One layer up, the other half counts when it is the right one. -/
theorem laterCount_succ (r i : ℕ) :
    laterCount live r (i + 1) = laterCount live r i +
      if r / 2 ^ i % 2 = 0 then blockCount live i (2 * (r / 2 ^ (i + 1)) + 1) else 0 := by
  -- a number above `r` is in the block of `r` or in a later one
  have hle : ∀ x, r < x → r / 2 ^ i ≤ x / 2 ^ i := fun x hx => Nat.div_le_div_right hx.le
  have hlt : ∀ x, r / 2 ^ i < x / 2 ^ i → r < x := by
    intro x hx
    by_contra hnot
    exact absurd (Nat.div_le_div_right (c := 2 ^ i) (not_lt.mp hnot)) (not_le.mpr hx)
  unfold laterCount blockCount
  simp only [div_pow_succ]
  split_ifs with heven
  · rw [← Finset.card_union_of_disjoint]
    · congr 1
      ext x
      have h1 := hle x
      have h2 := hlt x
      simp only [Finset.mem_filter, Finset.mem_union]
      constructor
      · rintro ⟨hx, hrx, hblock⟩
        have := h1 hrx
        by_cases heq : x / 2 ^ i = r / 2 ^ i
        · exact .inl ⟨hx, hrx, heq⟩
        · exact .inr ⟨hx, by omega⟩
      · rintro (⟨hx, hrx, hblock⟩ | ⟨hx, hblock⟩)
        · exact ⟨hx, hrx, by omega⟩
        · exact ⟨hx, h2 (by omega), by omega⟩
    · rw [Finset.disjoint_filter]
      intro x _ h1 h2
      omega
  · rw [add_zero]
    congr 1
    ext x
    have h1 := hle x
    simp only [Finset.mem_filter]
    refine and_congr_right fun _ => and_congr_right fun hrx => ?_
    have := h1 hrx
    omega

/-- In a block that holds everything, all that is above `r` has been counted. -/
theorem laterCount_top {live : Finset ℕ} {r i : ℕ} (hr : r < 2 ^ i)
    (hlive : ∀ x ∈ live, x < 2 ^ i) : laterCount live r i = (live.filter (r < ·)).card := by
  unfold laterCount
  congr 1
  refine Finset.filter_congr fun x hx => ?_
  simp [Nat.div_eq_of_lt hr, Nat.div_eq_of_lt (hlive x hx)]
