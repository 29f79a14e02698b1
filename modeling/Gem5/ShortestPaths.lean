/-
# Shortest paths by relaxation

The textbook loop that improves a matrix of distances in place until a whole
pass changes nothing: for every pair `(i, j)`, in the order of the rows, the
entry becomes the least of itself and `d i k + d k j`.

* `extendShortestPath`          — the loop; it ends because every pass but the
                                  last makes the sum of the entries smaller.
* `extendShortestPath_le`, `extendShortestPath_triangle`
                                — upper bounds: an entry is at most its first
                                  value, and at most a detour.
* `feasible_extendShortestPath` — lower bounds: a potential that no entry
                                  undercuts at the start is never undercut.

Together they give exact distances without any mention of paths.
-/
import Mathlib

/-- The distances between the elements of a finite set. -/
abbrev DistMatrix (ι : Type*) := ι → ι → ℕ

variable {ι : Type*}

/-! ## One entry -/

/-- The least of an entry and of the detours through `nodes`. -/
def relaxEntry (nodes : List ι) (d : DistMatrix ι) (i j : ι) : ℕ :=
  nodes.foldl (fun m k => min m (d i k + d k j)) (d i j)

theorem le_foldl_min {κ : Type*} (f : κ → ℕ) (x : ℕ) (l : List κ) : ∀ m,
    x ≤ l.foldl (fun m k => min m (f k)) m ↔ x ≤ m ∧ ∀ k ∈ l, x ≤ f k := by
  induction l with
  | nil => intro m; simp
  | cons k l ih =>
    intro m
    rw [List.foldl_cons, ih, le_min_iff, List.forall_mem_cons, and_assoc]

variable {nodes : List ι} {d : DistMatrix ι}

theorem le_relaxEntry {i j : ι} {x : ℕ} :
    x ≤ relaxEntry nodes d i j ↔ x ≤ d i j ∧ ∀ k ∈ nodes, x ≤ d i k + d k j :=
  le_foldl_min _ _ _ _

theorem relaxEntry_le (nodes : List ι) (d : DistMatrix ι) (i j : ι) :
    relaxEntry nodes d i j ≤ d i j :=
  (le_relaxEntry.mp le_rfl).1

/-! ## One pass -/

variable [DecidableEq ι]

/-- Improve one entry; the flag records that something has changed. -/
def relaxStep (nodes : List ι) (r : DistMatrix ι × Bool) (p : ι × ι) : DistMatrix ι × Bool :=
  if r.1 p.1 p.2 = relaxEntry nodes r.1 p.1 p.2 then r
  else (Function.update r.1 p.1
    (Function.update (r.1 p.1) p.2 (relaxEntry nodes r.1 p.1 p.2)), true)

/-- One pass over all pairs. -/
def relaxPass (nodes : List ι) (d : DistMatrix ι) : DistMatrix ι × Bool :=
  (nodes ×ˢ nodes).foldl (relaxStep nodes) (d, false)

theorem relaxStep_apply (nodes : List ι) (r : DistMatrix ι × Bool) (p : ι × ι) (i j : ι) :
    (relaxStep nodes r p).1 i j =
      if i = p.1 ∧ j = p.2 then relaxEntry nodes r.1 i j else r.1 i j := by
  unfold relaxStep
  split
  · rename_i heq
    split
    · rename_i hp
      rw [hp.1, hp.2]
      exact heq
    · rfl
  · by_cases hi : i = p.1
    · subst hi
      by_cases hj : j = p.2
      · subst hj
        simp
      · simp [hj]
    · simp [hi]

theorem relaxStep_le (nodes : List ι) (r : DistMatrix ι × Bool) (p : ι × ι) (i j : ι) :
    (relaxStep nodes r p).1 i j ≤ r.1 i j := by
  rw [relaxStep_apply]
  split
  · exact relaxEntry_le _ _ _ _
  · exact le_rfl

theorem foldl_relaxStep_le (nodes : List ι) (ps : List (ι × ι)) : ∀ (r : DistMatrix ι × Bool)
    (i j : ι), (ps.foldl (relaxStep nodes) r).1 i j ≤ r.1 i j := by
  induction ps with
  | nil => exact fun r i j => le_rfl
  | cons p ps ih => exact fun r i j => (ih _ i j).trans (relaxStep_le nodes r p i j)

/-- A flag that is set stays set. -/
theorem foldl_relaxStep_flag (nodes : List ι) (ps : List (ι × ι)) : ∀ r : DistMatrix ι × Bool,
    r.2 = true → (ps.foldl (relaxStep nodes) r).2 = true := by
  induction ps with
  | nil => exact fun r hr => hr
  | cons p ps ih =>
    intro r hr
    apply ih
    unfold relaxStep
    split
    · exact hr
    · rfl

/-- A pass sets the flag exactly if it has made some entry smaller, and otherwise every entry was
the least already. -/
theorem foldl_relaxStep_spec (nodes : List ι) (ps : List (ι × ι)) : ∀ d : DistMatrix ι,
    ((ps.foldl (relaxStep nodes) (d, false)).2 = true →
      ∃ p ∈ ps, (ps.foldl (relaxStep nodes) (d, false)).1 p.1 p.2 < d p.1 p.2) ∧
    ((ps.foldl (relaxStep nodes) (d, false)).2 = false →
      (ps.foldl (relaxStep nodes) (d, false)).1 = d ∧
        ∀ p ∈ ps, relaxEntry nodes d p.1 p.2 = d p.1 p.2) := by
  induction ps with
  | nil =>
    intro d
    refine ⟨fun h => ?_, fun _ => ⟨rfl, by simp⟩⟩
    cases h
  | cons p ps ih =>
    intro d
    rw [List.foldl_cons]
    by_cases heq : d p.1 p.2 = relaxEntry nodes d p.1 p.2
    · -- nothing changes at `p`
      have hstep : relaxStep nodes (d, false) p = (d, false) := if_pos heq
      rw [hstep]
      obtain ⟨htrue, hfalse⟩ := ih d
      constructor
      · intro h
        obtain ⟨q, hq, hlt⟩ := htrue h
        exact ⟨q, List.mem_cons_of_mem _ hq, hlt⟩
      · intro h
        obtain ⟨hd, hall⟩ := hfalse h
        exact ⟨hd, List.forall_mem_cons.mpr ⟨heq.symm, hall⟩⟩
    · have hflag : (relaxStep nodes (d, false) p).2 = true := by
        unfold relaxStep
        rw [if_neg heq]
      have hset := foldl_relaxStep_flag nodes ps _ hflag
      constructor
      · intro _
        refine ⟨p, List.mem_cons_self, ?_⟩
        refine (foldl_relaxStep_le nodes ps _ p.1 p.2).trans_lt ?_
        rw [relaxStep_apply, if_pos ⟨rfl, rfl⟩]
        exact lt_of_le_of_ne (relaxEntry_le _ _ _ _) (Ne.symm heq)
      · intro h
        rw [hset] at h
        cases h

/-- The sum of all entries, which the passes make smaller. -/
def totalDist (nodes : List ι) (d : DistMatrix ι) : ℕ :=
  ((nodes ×ˢ nodes).map fun p => d p.1 p.2).sum

theorem totalDist_relaxPass_lt (h : (relaxPass nodes d).2 = true) : totalDist nodes
    (relaxPass nodes d).1 < totalDist nodes d := by
  obtain ⟨p, hp, hlt⟩ := (foldl_relaxStep_spec nodes (nodes ×ˢ nodes) d).1 h
  exact List.sum_lt_sum _ _ (fun q _ => foldl_relaxStep_le nodes _ _ q.1 q.2) ⟨p, hp, hlt⟩

/-! ## The result -/

/-- Passes until nothing changes. -/
def extendShortestPath (nodes : List ι) (d : DistMatrix ι) : DistMatrix ι :=
  if (relaxPass nodes d).2 = true then extendShortestPath nodes (relaxPass nodes d).1
  else (relaxPass nodes d).1
termination_by totalDist nodes d
decreasing_by exact totalDist_relaxPass_lt ‹_›

/-- An induction rule: what passes keep holds at the end, where nothing changes any more. -/
theorem extendShortestPath_induct {P : DistMatrix ι → Prop}
    (hpass : ∀ d, P d → P (relaxPass nodes d).1) (d : DistMatrix ι) (hd : P d) :
    P (extendShortestPath nodes d) := by
  induction d using extendShortestPath.induct nodes with
  | case1 d h ih =>
    rw [extendShortestPath, if_pos h]
    exact ih (hpass d hd)
  | case2 d h =>
    rw [extendShortestPath, if_neg h]
    exact hpass d hd

theorem extendShortestPath_le (nodes : List ι) (d : DistMatrix ι) (i j : ι) :
    extendShortestPath nodes d i j ≤ d i j :=
  extendShortestPath_induct (P := fun e => e i j ≤ d i j)
    (fun e he => (foldl_relaxStep_le nodes _ (e, false) i j).trans he) d le_rfl

theorem extendShortestPath_triangle (d : DistMatrix ι) {i j k : ι}
    (hi : i ∈ nodes) (hj : j ∈ nodes) (hk : k ∈ nodes) :
    extendShortestPath nodes d i j ≤
      extendShortestPath nodes d i k + extendShortestPath nodes d k j := by
  induction d using extendShortestPath.induct nodes with
  | case1 d h ih =>
    rw [extendShortestPath, if_pos h]
    exact ih
  | case2 d h =>
    rw [extendShortestPath, if_neg h]
    -- the last pass has left every entry at its least value
    obtain ⟨hd, hall⟩ := (foldl_relaxStep_spec nodes (nodes ×ˢ nodes) d).2
      (Bool.eq_false_iff.mpr h)
    have hij := hall (i, j) (List.mem_product.mpr ⟨hi, hj⟩)
    show (relaxPass nodes d).1 i j ≤ (relaxPass nodes d).1 i k + (relaxPass nodes d).1 k j
    rw [relaxPass, hd]
    exact hij ▸ (le_relaxEntry.mp le_rfl).2 k hk

/-! ## Potentials -/

/-- No entry is smaller than the difference of the potential. -/
def Feasible (h : ι → ℕ) (d : DistMatrix ι) : Prop := ∀ i j, h i ≤ d i j + h j

theorem feasible_relaxStep {h : ι → ℕ} {r : DistMatrix ι × Bool}
    (hr : Feasible h r.1) (p : ι × ι) : Feasible h (relaxStep nodes r p).1 := by
  intro i j
  rw [relaxStep_apply]
  split
  · rw [← Nat.sub_le_iff_le_add, le_relaxEntry]
    constructor
    · have := hr i j
      omega
    · intro k _
      have := hr i k
      have := hr k j
      omega
  · exact hr i j

theorem feasible_extendShortestPath {h : ι → ℕ} (hd : Feasible h d)
    (nodes : List ι) : Feasible h (extendShortestPath nodes d) := by
  refine extendShortestPath_induct (P := Feasible h) ?_ d hd
  intro d hd
  have hfold : ∀ (ps : List (ι × ι)) (r : DistMatrix ι × Bool), Feasible h r.1 →
      Feasible h (ps.foldl (relaxStep nodes) r).1 := by
    intro ps
    induction ps with
    | nil => exact fun r hr => hr
    | cons p ps ih => exact fun r hr => ih _ (feasible_relaxStep hr p)
  exact hfold _ _ hd
