/-
# Trees that choose a victim

A complete binary tree over `2 ^ n` ways, with a bit at each inner node that
remembers which half was touched last (`true` is the right one).  The victim is
found by going at each node to the other half.

* `VictimTree.victim_touch_ne` — the victim is in the other half than the way
  touched last.
* `VictimTree.visits_perm`     — taking and touching the victim `2 ^ n` times
  visits every way once.
-/
import Mathlib

inductive VictimTree : ℕ → Type
  | leaf : VictimTree 0
  | node {n : ℕ} (bit : Bool) (left right : VictimTree n) : VictimTree (n + 1)

namespace VictimTree

variable {n : ℕ}

/-- The way that the bits lead away from. -/
def victim : {n : ℕ} → VictimTree n → ℕ
  | _, leaf => 0
  | n + 1, node bit left right => if bit then left.victim else 2 ^ n + right.victim

/-- The bits on the path to the way lead to it. -/
def touch : {n : ℕ} → VictimTree n → ℕ → VictimTree n
  | _, leaf, _ => leaf
  | n + 1, node _ left right, way =>
    if way.testBit n then node true left (right.touch way) else node false (left.touch way) right

variable (t : VictimTree n)

theorem victim_lt : t.victim < 2 ^ n := by
  induction t with
  | leaf => exact one_pos
  | @node n bit left right ihl ihr =>
    rw [victim, pow_succ]
    split <;> omega

/-- The ways of the right half have the upper bit. -/
theorem testBit_iff_le {way : ℕ} (h : way < 2 ^ (n + 1)) : way.testBit n = true ↔ 2 ^ n ≤ way := by
  constructor
  · exact Nat.ge_two_pow_of_testBit
  · intro hle
    rw [← Nat.add_sub_of_le hle, Nat.testBit_two_pow_add_eq, Nat.testBit_lt_two_pow (by omega)]
    rfl

/-- After a touch the victim is in the other half. -/
theorem victim_touch_lt_iff (t : VictimTree (n + 1)) (way : ℕ) :
    (t.touch way).victim < 2 ^ n ↔ way.testBit n = true := by
  cases t with
  | node bit left right =>
    rw [touch]
    cases way.testBit n with
    | true => simpa [victim] using victim_lt left
    | false => simp [victim]

theorem victim_touch_ne (t : VictimTree (n + 1)) {way : ℕ} (h : way < 2 ^ (n + 1)) :
    (t.touch way).victim ≠ way := by
  have hvictim := victim_touch_lt_iff t way
  have hway := testBit_iff_le h
  by_cases hle : 2 ^ n ≤ way
  · have := hvictim.mpr (hway.mpr hle)
    omega
  · have hnot := mt hvictim.mp (mt hway.mp hle)
    omega

/-- A touch depends on the lower bits only. -/
theorem touch_congr {v w : ℕ} (h : ∀ i < n, v.testBit i = w.testBit i) :
    t.touch v = t.touch w := by
  induction t with
  | leaf => rfl
  | @node n bit left right ihl ihr =>
    have hlower : ∀ i < n, v.testBit i = w.testBit i := fun i hi => h i (by omega)
    rw [touch, touch, h n (Nat.lt_succ_self n), ihl hlower, ihr hlower]

/-! ## Taking the victim again and again -/

/-- The victim is taken and touched. -/
def next : VictimTree n := t.touch t.victim

def visits (t : VictimTree n) : ℕ → List ℕ
  | 0 => []
  | k + 1 => t.victim :: t.next.visits k

/-- A node goes to its halves in turn. -/
theorem next_node (bit : Bool) (left right : VictimTree n) :
    (node bit left right).next =
      if bit then node false left.next right else node true left right.next := by
  unfold next
  cases bit with
  | true =>
    have hbit : (left.victim).testBit n = false := Nat.testBit_lt_two_pow (victim_lt left)
    simp [touch, victim, hbit]
  | false =>
    have hbit : (2 ^ n + right.victim).testBit n = true := by
      rw [Nat.testBit_two_pow_add_eq, Nat.testBit_lt_two_pow (victim_lt right)]
      rfl
    have hlower : right.touch (2 ^ n + right.victim) = right.touch right.victim :=
      touch_congr right fun i hi => Nat.testBit_two_pow_add_gt hi _
    simp [touch, victim, hbit, hlower]

/-- Two rounds at a node are one round in each half. -/
theorem visits_node (k : ℕ) : ∀ (bit : Bool) (left right : VictimTree n),
    ((node bit left right).visits (2 * k)).Perm
      (left.visits k ++ (right.visits k).map (2 ^ n + ·)) := by
  induction k with
  | zero => intro bit left right; exact List.Perm.refl _
  | succ k ih =>
    intro bit left right
    have hrounds : (node bit left right).visits (2 * (k + 1)) =
        (node bit left right).victim :: (node bit left right).next.victim ::
          (node bit left right).next.next.visits (2 * k) := rfl
    rw [hrounds]
    have hmiddle : ∀ (x : ℕ) (l m : List ℕ), (x :: (l ++ m)).Perm (l ++ x :: m) :=
      fun x l m => List.perm_middle.symm
    cases bit with
    | true =>
      simp only [next_node, victim, if_true, if_false, Bool.false_eq_true, visits, List.cons_append,
        List.map_cons]
      exact (((ih true left.next right.next).cons _).trans (hmiddle _ _ _)).cons _
    | false =>
      simp only [next_node, victim, if_true, if_false, Bool.false_eq_true, visits, List.cons_append,
        List.map_cons]
      refine (List.Perm.swap _ _ _).trans ?_
      exact (((ih false left.next right.next).cons _).trans (hmiddle _ _ _)).cons _

/-- **Every way once.** -/
theorem visits_perm : (t.visits (2 ^ n)).Perm (List.range (2 ^ n)) := by
  induction t with
  | leaf => exact List.Perm.refl _
  | @node n bit left right ihl ihr =>
    rw [pow_succ, mul_comm]
    refine (visits_node (2 ^ n) bit left right).trans ?_
    rw [two_mul, List.range_add]
    exact ihl.append (ihr.map _)

end VictimTree
