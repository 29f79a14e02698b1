/-
# Counting

Messages leave a buffer from any position (`eraseIdx`) and enter it at the end
(`++`); accounting arguments only count them.  A balance is a sum over parties
of which a step changes one term.
-/
import Mathlib.Data.List.Perm.Basic
import Mathlib.Data.List.Count
import Mathlib.Algebra.BigOperators.Ring.Finset
import Mathlib.Algebra.Order.Ring.Int
import Mathlib.Data.Fintype.BigOperators
import Mathlib.Tactic.Ring

/-! ## Messages in a queue -/

variable {α : Type*} {l : List α} {i : ℕ} {a : α}

/-- Taking a message out of a queue takes it out of the count. -/
theorem List.countP_eraseIdx_add (p : α → Bool) (h : l[i]? = some a) :
    (l.eraseIdx i).countP p + (if p a then 1 else 0) = l.countP p := by
  obtain ⟨hi, rfl⟩ := List.getElem?_eq_some_iff.mp h
  rw [← (List.getElem_cons_eraseIdx_perm hi).countP_eq, List.countP_cons]

theorem List.length_eraseIdx_add (h : l[i]? = some a) :
    (l.eraseIdx i).length + 1 = l.length := by
  obtain ⟨hi, -⟩ := List.getElem?_eq_some_iff.mp h
  rw [List.length_eraseIdx_of_lt hi]
  omega

/-- Counting by kinds: if every message counted by `p` is counted by exactly one of `q` and `r`,
the counts add up. -/
theorem List.countP_eq_add {p q r : α → Bool} (h : ∀ a ∈ l, (p a).toNat = (q a).toNat + (r a).toNat) :
    l.countP p = l.countP q + l.countP r := by
  induction l with
  | nil => rfl
  | cons a l ih =>
    have ha := h a List.mem_cons_self
    have hl := ih fun b hb => h b (List.mem_cons_of_mem _ hb)
    rw [List.countP_cons, List.countP_cons, List.countP_cons, hl]
    cases hq : q a <;> cases hr : r a <;> cases hp : p a <;> simp [hq, hr, hp] at ha ⊢ <;> omega

/-! ## Sums over parties -/

/-- Changing one term changes the sum by the difference. -/
theorem Finset.sum_change {ι : Type*} [Fintype ι] [DecidableEq ι] {f g : ι → ℤ} (i : ι)
    (h : ∀ j, j ≠ i → g j = f j) : ∑ j, g j = ∑ j, f j + (g i - f i) := by
  have herase : ∑ j ∈ Finset.univ.erase i, g j = ∑ j ∈ Finset.univ.erase i, f j :=
    Finset.sum_congr rfl fun j hj => h j (Finset.ne_of_mem_erase hj)
  rw [← Finset.add_sum_erase _ f (Finset.mem_univ i), ← Finset.add_sum_erase _ g (Finset.mem_univ i),
    herase]
  ring
