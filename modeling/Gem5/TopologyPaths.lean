/-
# Paths of a topology

`extend_shortest_path` (`src/mem/ruby/network/Topology.cc`) improves three
matrices in place until a pass changes nothing: the distances, the latencies and
the numbers of intermediate switches.  The second and the third are recorded on
the way, from entries that may still get better, and the third already while the
minimum is looked for.  All the same the three entries of a pair belong to one
path (`shortest_paths_recorded`).

The entries are `int`, so a sum can overflow.  The model takes the set of the
values that fit as a parameter: `fitsInt` for the code, everything for exact
integers.  `SumsFit` bounds the weights and latencies such that nothing overflows.

* `PathTables.extendShortestPath` — the loop.
* `ShortestPathTables`            — what it should compute.
-/
import Gem5.ShortestPaths
import Gem5.TransitionSystem
import Mathlib

open List

/-! ## Paths -/

section Paths

variable {ι : Type*} {M : Type*} [AddMonoid M]

/-- The sum over the links of the path from `i` to `j` through the switches in between. -/
def pathSum (f : ι → ι → M) (i : ι) : List ι → ι → M
  | [], j => f i j
  | k :: ks, j => f i k + pathSum f k ks j

theorem pathSum_append (f : ι → ι → M) (k j : ι) (ks' : List ι) (ks : List ι) : ∀ i,
    pathSum f i (ks ++ k :: ks') j = pathSum f i ks k + pathSum f k ks' j := by
  induction ks with
  | nil => intro i; rfl
  | cons l ks ih =>
    intro i
    rw [cons_append, pathSum, pathSum, ih, add_assoc]

end Paths

/-- A matrix with the triangle inequality is below the sums of a matrix it is below of. -/
theorem le_pathSum {ι : Type*} {d w : ι → ι → ℕ} (hle : ∀ i j, d i j ≤ w i j)
    (htriangle : ∀ i j k, d i j ≤ d i k + d k j) (ks : List ι) (j : ι) :
    ∀ i, d i j ≤ pathSum w i ks j := by
  induction ks with
  | nil => exact fun i => hle i j
  | cons k ks ih =>
    intro i
    exact (htriangle i j k).trans (add_le_add (hle i k) (ih k))

/-! ## The loop -/

/-- The three matrices. -/
structure PathTables (ι : Type) where
  dist : DistMatrix ι
  latencies : ι → ι → ℤ
  interSwitches : ι → ι → ℕ

/-- What an `int` can hold. -/
def fitsInt (x : ℤ) : Prop := -2 ^ 31 ≤ x ∧ x < 2 ^ 31

instance : DecidablePred fitsInt := fun _ => inferInstanceAs (Decidable (_ ∧ _))

/-- Exact integers hold everything. -/
def fitsAny (_ : ℤ) : Prop := True

instance : DecidablePred fitsAny := fun _ => inferInstanceAs (Decidable True)

theorem fitsAny_intro (x : ℤ) : fitsAny x := trivial

variable {ι : Type} [DecidableEq ι]

/-- One entry of a matrix is written. -/
def setEntry {γ : Type} (f : ι → ι → γ) (i j : ι) (x : γ) : ι → ι → γ :=
  Function.update f i (Function.update (f i) j x)

theorem setEntry_apply {γ : Type} (f : ι → ι → γ) (i j : ι) (x : γ) (a b : ι) :
    setEntry f i j x a b = if a = i ∧ b = j then x else f a b := by
  unfold setEntry
  rcases eq_or_ne a i with rfl | ha
  · rcases eq_or_ne b j with rfl | hb
    · simp
    · simp [hb]
  · simp [ha]

/-- The variables of the innermost loop. -/
structure Detour (ι : Type) where
  minimum : ℕ
  intermediateSwitch : Option ι
  interSwitches : ι → ι → ℕ

namespace PathTables

section

variable (fits : ℤ → Prop) [DecidablePred fits]

/-- One round of the innermost loop. -/
def tryDetour (t : PathTables ι) (i j : ι) (s : Detour ι) (k : ι) : Except Abort (Detour ι) :=
  if fits (t.dist i k + t.dist k j) then
    if s.minimum = min s.minimum (t.dist i k + t.dist k j) then .ok s
    else if fits (s.interSwitches i k + s.interSwitches k j + 1) then
      .ok
        { minimum := min s.minimum (t.dist i k + t.dist k j)
          intermediateSwitch := some k
          interSwitches :=
            setEntry s.interSwitches i j (s.interSwitches i k + s.interSwitches k j + 1) }
    else .error .undefined
  else .error .undefined

/-- The body of the loops over `i` and `j`. -/
def extendPair (nodes : List ι) (r : PathTables ι × Bool) (p : ι × ι) :
    Except Abort (PathTables ι × Bool) := do
  let s ← nodes.foldlM (tryDetour fits r.1 p.1 p.2) ⟨r.1.dist p.1 p.2, none, r.1.interSwitches⟩
  if r.1.dist p.1 p.2 = s.minimum then pure ({ r.1 with interSwitches := s.interSwitches }, r.2)
  else
    match s.intermediateSwitch with
    | none => .error .assertion
    | some k =>
      if fits (r.1.latencies p.1 k + r.1.latencies k p.2) then
        pure
          ({ dist := setEntry r.1.dist p.1 p.2 s.minimum
             latencies :=
               setEntry r.1.latencies p.1 p.2 (r.1.latencies p.1 k + r.1.latencies k p.2)
             interSwitches := s.interSwitches }, true)
      else .error .undefined

/-- One pass of the outer loop. -/
def extendPass (nodes : List ι) (t : PathTables ι) : Except Abort (PathTables ι × Bool) :=
  (nodes ×ˢ nodes).foldlM (extendPair fits nodes) (t, false)

end

/-! ### The distances -/

variable {fits : ℤ → Prop} [DecidablePred fits] {nodes : List ι}

variable {t : PathTables ι} {i j k : ι} {s s' : Detour ι} {r r' : PathTables ι × Bool} {p : ι × ι}

theorem tryDetour_minimum (h : tryDetour fits t i j s k = .ok s') :
    s'.minimum = min s.minimum (t.dist i k + t.dist k j) := by
  unfold tryDetour at h
  split at h
  · split at h
    · rename_i heq
      cases h
      exact heq
    · split at h
      · cases h
        rfl
      · cases h
  · cases h

theorem foldlM_tryDetour_minimum (ks : List ι) (h : ks.foldlM (tryDetour fits t i j) s = .ok s') :
    s'.minimum = ks.foldl (fun m k => min m (t.dist i k + t.dist k j)) s.minimum :=
  foldlM_eq_foldl (fun _ _ _ => tryDetour_minimum) ks h

/-- The distances and the flag change as in the general loop. -/
theorem extendPair_dist (h : extendPair fits nodes r p = .ok r') :
    (r'.1.dist, r'.2) = relaxStep nodes (r.1.dist, r.2) p := by
  obtain ⟨s, hs, h⟩ := Except.bind_eq_ok h
  have hmin : s.minimum = relaxEntry nodes r.1.dist p.1 p.2 := foldlM_tryDetour_minimum nodes hs
  unfold relaxStep
  rw [← hmin]
  split at h
  · rename_i heq
    cases h
    rw [if_pos heq]
  · rename_i hne
    rw [if_neg hne]
    split at h
    · cases h
    · split at h
      · cases h
        rfl
      · cases h

theorem extendPass_dist (h : extendPass fits nodes t = .ok r) :
    (r.1.dist, r.2) = relaxPass nodes t.dist :=
  foldlM_eq_foldl (g := fun r : PathTables ι × Bool => (r.1.dist, r.2))
    (fun _ _ _ => extendPair_dist) _ h

theorem totalDist_extendPass_lt {t' : PathTables ι} (h : extendPass fits nodes t = .ok (t', true)) :
    totalDist nodes t'.dist < totalDist nodes t.dist := by
  have hpass := extendPass_dist h
  have hflag : (relaxPass nodes t.dist).2 = true := by rw [← hpass]
  have hdist : t'.dist = (relaxPass nodes t.dist).1 := by rw [← hpass]
  rw [hdist]
  exact totalDist_relaxPass_lt hflag

variable (fits nodes) in
/-- `extend_shortest_path`: passes until nothing changes. -/
def extendShortestPath (t : PathTables ι) : Except Abort (PathTables ι) :=
  match _h : extendPass fits nodes t with
  | .error e => .error e
  | .ok (t', true) => extendShortestPath t'
  | .ok (t', false) => .ok t'
termination_by totalDist nodes t.dist
decreasing_by exact totalDist_extendPass_lt _h

/-- Induction over the passes of a run that ends. -/
theorem extendShortestPath_rec {motive : PathTables ι → PathTables ι → Prop}
    (more : ∀ t t' r, extendPass fits nodes t = .ok (t', true) →
      extendShortestPath fits nodes t' = .ok r → motive t' r → motive t r)
    (done : ∀ t t', extendPass fits nodes t = .ok (t', false) → motive t t') {r : PathTables ι}
    (h : extendShortestPath fits nodes t = .ok r) : motive t r := by
  induction t using PathTables.extendShortestPath.induct fits nodes with
  | case1 t e he =>
    rw [extendShortestPath, he] at h
    cases h
  | case2 t t' hpass ih =>
    rw [extendShortestPath, hpass] at h
    exact more t t' r hpass h (ih h)
  | case3 t t' hpass =>
    rw [extendShortestPath, hpass] at h
    obtain rfl := Except.ok.inj h
    exact done t t' hpass

/-- The matrices at the start: no intermediate switches. -/
def start (weights : DistMatrix ι) (latencies : ι → ι → ℤ) : PathTables ι :=
  { dist := weights, latencies := latencies, interSwitches := fun _ _ => 0 }

/-! ### The recorded paths -/

/-- The entries of every pair are those of one path. -/
def Recorded (weights : DistMatrix ι) (latencies : ι → ι → ℤ) (t : PathTables ι) : Prop :=
  ∀ i j, ∃ ks, pathSum weights i ks j = t.dist i j ∧ ks.length = t.interSwitches i j ∧
    pathSum latencies i ks j = t.latencies i j

/-- What the innermost loop knows: nothing better so far, or a detour with its switches. -/
structure Detoured (t : PathTables ι) (i j : ι) (s : Detour ι) : Prop where
  others : ∀ a b, ¬ (a = i ∧ b = j) → s.interSwitches a b = t.interSwitches a b
  best : s.minimum = t.dist i j ∧ s.interSwitches i j = t.interSwitches i j ∨
    s.minimum < t.dist i j ∧ ∃ k, k ≠ i ∧ k ≠ j ∧ s.intermediateSwitch = some k ∧
      s.minimum = t.dist i k + t.dist k j ∧
      s.interSwitches i j = t.interSwitches i k + t.interSwitches k j + 1

omit [DecidableEq ι] in
/-- The ends of the path give no better one, so a better one is made of two other entries. -/
theorem Detoured.apart (hi : t.dist i i = 0) (hj : t.dist j j = 0) (h : Detoured t i j s)
    (hlt : t.dist i k + t.dist k j < s.minimum) :
    s.minimum ≤ t.dist i j ∧ k ≠ i ∧ k ≠ j ∧ s.interSwitches i k = t.interSwitches i k ∧
      s.interSwitches k j = t.interSwitches k j := by
  have hle : s.minimum ≤ t.dist i j := by
    rcases h.best with ⟨hm, -⟩ | ⟨hm, -⟩ <;> omega
  have hki : k ≠ i := by
    rintro rfl
    omega
  have hkj : k ≠ j := by
    rintro rfl
    omega
  exact ⟨hle, hki, hkj, h.others i k fun hb => hkj hb.2, h.others k j fun ha => hki ha.1⟩

theorem Detoured.tryDetour (hi : t.dist i i = 0) (hj : t.dist j j = 0) (h : Detoured t i j s)
    (hs : PathTables.tryDetour fits t i j s k = .ok s') : Detoured t i j s' := by
  unfold PathTables.tryDetour at hs
  split at hs
  · split at hs
    · cases hs
      exact h
    · rename_i hne
      split at hs
      · cases hs
        have hlt : t.dist i k + t.dist k j < s.minimum := by omega
        obtain ⟨hle, hki, hkj, hik, hkj'⟩ := h.apart hi hj hlt
        refine ⟨fun a b hab => ?_, .inr ⟨?_, k, hki, hkj, rfl, min_eq_right hlt.le, ?_⟩⟩
        · dsimp only
          rw [setEntry_apply, if_neg hab]
          exact h.others a b hab
        · exact (min_le_right _ _).trans_lt (hlt.trans_le hle)
        · dsimp only
          rw [setEntry_apply, if_pos ⟨rfl, rfl⟩, hik, hkj']
      · cases hs
  · cases hs

theorem Detoured.foldlM (hi : t.dist i i = 0) (hj : t.dist j j = 0)
    (ks : List ι) (h : Detoured t i j s)
    (hs : ks.foldlM (PathTables.tryDetour fits t i j) s = .ok s') : Detoured t i j s' :=
  foldlM_invariant (fun _ _ _ h hs => h.tryDetour hi hj hs) ks h hs

omit [DecidableEq ι] in
theorem detoured_start (t : PathTables ι) (i j : ι) :
    Detoured t i j ⟨t.dist i j, none, t.interSwitches⟩ :=
  ⟨fun _ _ _ => rfl, .inl ⟨rfl, rfl⟩⟩

/-- The three entries of a pair, written from those of the two parts of a detour. -/
def detour (t : PathTables ι) (i j k : ι) : PathTables ι where
  dist := setEntry t.dist i j (t.dist i k + t.dist k j)
  latencies := setEntry t.latencies i j (t.latencies i k + t.latencies k j)
  interSwitches := setEntry t.interSwitches i j (t.interSwitches i k + t.interSwitches k j + 1)

/-- **One pair**: nothing changes, or the pair gets a detour. -/
theorem extendPair_spec (hdiag : ∀ i, r.1.dist i i = 0)
    (hr : PathTables.extendPair fits nodes r p = .ok r') :
    r'.1 = r.1 ∨ ∃ k, k ≠ p.1 ∧ k ≠ p.2 ∧ r.1.dist p.1 k + r.1.dist k p.2 < r.1.dist p.1 p.2 ∧
      r'.1 = r.1.detour p.1 p.2 k := by
  obtain ⟨s, hs, hr⟩ := Except.bind_eq_ok hr
  have hdetour := (detoured_start r.1 p.1 p.2).foldlM (hdiag _) (hdiag _) nodes hs
  -- the switches are written while the minimum is looked for
  have hinter : ∀ {x}, s.interSwitches p.1 p.2 = x →
      s.interSwitches = setEntry r.1.interSwitches p.1 p.2 x := by
    intro x hx
    funext a b
    rw [setEntry_apply]
    split
    · rename_i hab
      rw [hab.1, hab.2, hx]
    · rename_i hab
      exact hdetour.others a b hab
  split at hr
  · cases hr
    left
    rcases hdetour.best with ⟨-, hsame⟩ | ⟨hlt, -⟩
    · show PathTables.mk _ _ s.interSwitches = r.1
      rw [hinter hsame, setEntry, Function.update_eq_self, Function.update_eq_self]
    · omega
  · rename_i hne
    rcases hdetour.best with ⟨hsame, -⟩ | ⟨hlt, k, hki, hkj, hk, hmin, hnew⟩
    · exact absurd hsame.symm hne
    · rw [hk] at hr
      dsimp only at hr
      split at hr
      · cases hr
        refine .inr ⟨k, hki, hkj, hmin ▸ hlt, ?_⟩
        rw [detour, ← hinter hnew, ← hmin]
      · cases hr

variable {weights : DistMatrix ι} {latencies : ι → ι → ℤ}

theorem Recorded.detour (h : Recorded weights latencies t) (i j k : ι) :
    Recorded weights latencies (t.detour i j k) := by
  intro a b
  simp only [PathTables.detour, setEntry_apply]
  by_cases hab : a = i ∧ b = j
  · obtain ⟨rfl, rfl⟩ := hab
    obtain ⟨ks, hw, hl, hlat⟩ := h a k
    obtain ⟨ks', hw', hl', hlat'⟩ := h k b
    refine ⟨ks ++ k :: ks', ?_, ?_, ?_⟩
    · rw [if_pos ⟨rfl, rfl⟩, pathSum_append, hw, hw']
    · rw [if_pos ⟨rfl, rfl⟩, length_append, length_cons]
      omega
    · rw [if_pos ⟨rfl, rfl⟩, pathSum_append, hlat, hlat']
  · rw [if_neg hab, if_neg hab, if_neg hab]
    exact h a b

theorem Recorded.extendPair (hdiag : ∀ i, r.1.dist i i = 0) (h : Recorded weights latencies r.1)
    (hr : PathTables.extendPair fits nodes r p = .ok r') : Recorded weights latencies r'.1 := by
  rcases extendPair_spec hdiag hr with heq | ⟨k, -, -, -, heq⟩
  · rw [heq]
    exact h
  · rw [heq]
    exact h.detour p.1 p.2 k

/-- The diagonal stays zero. -/
theorem extendPair_diag (hdiag : ∀ i, r.1.dist i i = 0)
    (hr : PathTables.extendPair fits nodes r p = .ok r') (i : ι) : r'.1.dist i i = 0 := by
  have hle := relaxStep_le nodes (r.1.dist, r.2) p i i
  rw [← extendPair_dist hr] at hle
  exact Nat.le_zero.mp (hle.trans_eq (hdiag i))

theorem Recorded.extendPass (hdiag : ∀ i, t.dist i i = 0) (h : Recorded weights latencies t)
    (hr : PathTables.extendPass fits nodes t = .ok r) :
    Recorded weights latencies r.1 ∧ ∀ i, r.1.dist i i = 0 := by
  refine foldlM_invariant (P := fun r : PathTables ι × Bool =>
    Recorded weights latencies r.1 ∧ ∀ i, r.1.dist i i = 0) ?_ _ ⟨h, hdiag⟩ hr
  intro r p r' hr hr'
  exact ⟨hr.1.extendPair hr.2 hr', extendPair_diag hr.2 hr'⟩

theorem Recorded.extendShortestPath {r : PathTables ι} (h : Recorded weights latencies t)
    (hdiag : ∀ i, t.dist i i = 0) (hr : PathTables.extendShortestPath fits nodes t = .ok r) :
    Recorded weights latencies r := by
  refine extendShortestPath_rec (motive := fun t r => Recorded weights latencies t →
    (∀ i, t.dist i i = 0) → Recorded weights latencies r) ?_ ?_ hr h hdiag
  · intro t t' r hpass _ ih h hdiag
    obtain ⟨h', hdiag'⟩ := h.extendPass hdiag hpass
    exact ih h' hdiag'
  · intro t t' hpass h hdiag
    exact (h.extendPass hdiag hpass).1

/-! ### Sums that fit -/

/-- With fewer values that fit, the same is computed or a sum overflows. -/
theorem tryDetour_exact_or (t : PathTables ι) (i j : ι) (s : Detour ι) (k : ι) :
    tryDetour fits t i j s k = tryDetour fitsAny t i j s k ∨
      tryDetour fits t i j s k = .error .undefined := by
  unfold tryDetour
  rw [if_pos (fitsAny_intro _), if_pos (fitsAny_intro _)]
  by_cases hdist : fits (t.dist i k + t.dist k j)
  · by_cases hinter : fits (s.interSwitches i k + s.interSwitches k j + 1)
    · rw [if_pos hdist, if_pos hinter]
      exact .inl rfl
    · rw [if_pos hdist, if_neg hinter]
      split
      · exact .inl rfl
      · exact .inr rfl
  · exact .inr (if_neg hdist)

theorem extendPair_exact_or (nodes : List ι) (r : PathTables ι × Bool) (p : ι × ι) :
    extendPair fits nodes r p = extendPair fitsAny nodes r p ∨
      extendPair fits nodes r p = .error .undefined := by
  refine Except.bind_eq_or_error
    (foldlM_eq_or_error (tryDetour_exact_or r.1 p.1 p.2) nodes _) fun s => ?_
  split
  · exact .inl rfl
  · split
    · exact .inl rfl
    · rename_i k _
      by_cases hfits : fits (r.1.latencies p.1 k + r.1.latencies k p.2)
      · rw [if_pos hfits, if_pos (fitsAny_intro _)]
        exact .inl rfl
      · exact .inr (if_neg hfits)

theorem extendShortestPath_exact_or (t : PathTables ι) :
    extendShortestPath fits nodes t = extendShortestPath fitsAny nodes t ∨
      extendShortestPath fits nodes t = .error .undefined := by
  have hpass : ∀ t, extendPass fits nodes t = extendPass fitsAny nodes t ∨
      extendPass fits nodes t = .error .undefined :=
    fun t => foldlM_eq_or_error (extendPair_exact_or nodes) _ (t, false)
  induction t using PathTables.extendShortestPath.induct fits nodes with
  | case1 t e he =>
    rw [extendShortestPath, he]
    rcases hpass t with heq | herr
    · rw [extendShortestPath, ← heq, he]
      exact .inl rfl
    · rw [he] at herr
      exact .inr (congrArg _ (Except.error.inj herr))
  | case2 t t' he ih =>
    rw [extendShortestPath, he]
    rcases hpass t with heq | herr
    · have hnext : extendShortestPath fitsAny nodes t = extendShortestPath fitsAny nodes t' := by
        rw [extendShortestPath, ← heq, he]
      rw [hnext]
      exact ih
    · rw [he] at herr
      cases herr
  | case3 t t' he =>
    rw [extendShortestPath, he]
    rcases hpass t with heq | herr
    · rw [extendShortestPath, ← heq, he]
      exact .inl rfl
    · rw [he] at herr
      cases herr

variable (fits) in
/-- The sums of the tables fit: those of all distances, and the other two of true detours. -/
def Fitting (t : PathTables ι) : Prop :=
  ∀ i j k, fits (t.dist i k + t.dist k j) ∧ (k ≠ i → k ≠ j →
    fits (t.interSwitches i k + t.interSwitches k j + 1) ∧
    fits (t.latencies i k + t.latencies k j))

/-- What the loops over pairs need of the tables they are in. -/
structure Safe (fits : ℤ → Prop) (t : PathTables ι) : Prop where
  diag : ∀ i, t.dist i i = 0
  fitting : t.Fitting fits

theorem exists_tryDetour (h : t.Safe fits) (hs : Detoured t i j s) (k : ι) :
    ∃ s', tryDetour fits t i j s k = .ok s' := by
  unfold tryDetour
  rw [if_pos (h.fitting i j k).1]
  split_ifs with hmin hinter
  · exact ⟨s, rfl⟩
  · exact ⟨_, rfl⟩
  · -- a better one is made of entries as they were
    obtain ⟨-, hki, hkj, hik, hkj'⟩ := hs.apart (h.diag i) (h.diag j) (k := k) (by omega)
    rw [hik, hkj'] at hinter
    exact absurd ((h.fitting i j k).2 hki hkj).1 hinter

/-- While all sums fit nothing fails: a better minimum has its intermediate switch. -/
theorem exists_extendPair (nodes : List ι) (p : ι × ι) (h : r.1.Safe fits) :
    ∃ r', extendPair fits nodes r p = .ok r' := by
  obtain ⟨s, hs, hdetour⟩ := exists_foldlM_eq_ok (f := tryDetour fits r.1 p.1 p.2)
    (P := Detoured r.1 p.1 p.2) nodes
    (fun s k _ hs => (exists_tryDetour h hs k).imp fun _ h' =>
      ⟨h', hs.tryDetour (h.diag _) (h.diag _) h'⟩)
    ⟨r.1.dist p.1 p.2, none, r.1.interSwitches⟩ (detoured_start ..)
  unfold extendPair
  rw [hs]
  show ∃ r', (if r.1.dist p.1 p.2 = s.minimum then _ else _) = _
  split_ifs with heq
  · exact ⟨_, rfl⟩
  · rcases hdetour.best with ⟨hsame, -⟩ | ⟨-, k, hki, hkj, hk, -⟩
    · exact absurd hsame.symm heq
    · rw [hk]
      exact ⟨_, if_pos ((h.fitting p.1 p.2 k).2 hki hkj).2⟩

/-- The loop returns if what makes the sums fit is kept by detours. -/
theorem exists_extendShortestPath {P : PathTables ι → Prop} (nodes : List ι)
    (hsafe : ∀ t, P t → t.Safe fits)
    (hdetour : ∀ t i j k, P t → k ≠ i → k ≠ j → t.dist i k + t.dist k j < t.dist i j →
      P (t.detour i j k)) (t : PathTables ι) :
    P t → ∃ r, extendShortestPath fits nodes t = .ok r := by
  have hpass : ∀ t, P t → ∃ r, extendPass fits nodes t = .ok r ∧ P r.1 := by
    intro t ht
    refine exists_foldlM_eq_ok (P := fun r : PathTables ι × Bool => P r.1) _ ?_ _ ht
    intro r p _ hr
    obtain ⟨r', hr'⟩ := exists_extendPair nodes p (hsafe _ hr)
    refine ⟨r', hr', ?_⟩
    rcases extendPair_spec (hsafe _ hr).diag hr' with heq | ⟨k, hki, hkj, hlt, heq⟩
    · rw [heq]
      exact hr
    · rw [heq]
      exact hdetour _ _ _ _ hr hki hkj hlt
  induction t using PathTables.extendShortestPath.induct fits nodes with
  | case1 t e he =>
    intro ht
    obtain ⟨r, hr, -⟩ := hpass t ht
    rw [hr] at he
    cases he
  | case2 t t' he ih =>
    intro ht
    obtain ⟨r, hr, hP⟩ := hpass t ht
    rw [he] at hr
    cases hr
    rw [extendShortestPath, he]
    exact ih hP
  | case3 t t' he =>
    intro _
    rw [extendShortestPath, he]
    exact ⟨t', rfl⟩

/-- Exact sums need the zero diagonal only. -/
theorem exists_extendShortestPath_exact (nodes : List ι) (t : PathTables ι)
    (hdiag : ∀ i, t.dist i i = 0) : ∃ r, extendShortestPath fitsAny nodes t = .ok r := by
  refine exists_extendShortestPath (P := fun t => ∀ i, t.dist i i = 0) nodes
    (fun t ht => ⟨ht, fun i j k => ⟨trivial, fun _ _ => ⟨trivial, trivial⟩⟩⟩) ?_ t hdiag
  intro t i j k ht _ _ hlt a
  show setEntry t.dist i j _ a a = 0
  rw [setEntry_apply]
  split
  · rename_i ha
    have := ht a
    rw [ha.1] at this
    rw [← ha.2, ha.1] at hlt
    omega
  · exact ht a

/-- The entries are bounded by the distances: every link weighs something. -/
structure Bounded (weights : DistMatrix ι) (latency : ℕ) (t : PathTables ι) : Prop where
  diag : ∀ i, t.dist i i = 0
  dist : ∀ i j, t.dist i j ≤ weights i j
  inter : ∀ i j, i ≠ j → t.interSwitches i j + 1 ≤ t.dist i j
  latencies : ∀ i j, i ≠ j → |t.latencies i j| ≤ latency * t.dist i j

theorem Bounded.detour {latency : ℕ} (h : t.Bounded weights latency) (hki : k ≠ i) (hkj : k ≠ j)
    (hlt : t.dist i k + t.dist k j < t.dist i j) : (t.detour i j k).Bounded weights latency := by
  have hij : i ≠ j := by
    rintro rfl
    rw [h.diag] at hlt
    omega
  constructor
  · intro a
    show setEntry t.dist i j _ a a = 0
    rw [setEntry_apply, if_neg fun ha => hij (ha.1.symm.trans ha.2)]
    exact h.diag a
  · intro a b
    show setEntry t.dist i j _ a b ≤ _
    rw [setEntry_apply]
    split
    · rename_i hab
      rw [hab.1, hab.2]
      exact hlt.le.trans (h.dist i j)
    · exact h.dist a b
  · intro a b hab
    show setEntry t.interSwitches i j _ a b + 1 ≤ setEntry t.dist i j _ a b
    rw [setEntry_apply, setEntry_apply]
    split
    · have hik := h.inter i k hki.symm
      have hkj' := h.inter k j hkj
      omega
    · exact h.inter a b hab
  · intro a b hab
    show |setEntry t.latencies i j _ a b| ≤ latency * ((setEntry t.dist i j _ a b : ℕ) : ℤ)
    rw [setEntry_apply, setEntry_apply]
    split
    · calc |t.latencies i k + t.latencies k j|
          ≤ |t.latencies i k| + |t.latencies k j| := abs_add_le ..
        _ ≤ latency * t.dist i k + latency * t.dist k j :=
            add_le_add (h.latencies i k hki.symm) (h.latencies k j hkj)
        _ = latency * ((t.dist i k + t.dist k j : ℕ) : ℤ) := by push_cast; ring
    · exact h.latencies a b hab

end PathTables

/-- The distances are those of the general loop. -/
theorem dist_extendShortestPath {fits : ℤ → Prop} [DecidablePred fits] {nodes : List ι}
    {t r : PathTables ι} (h : t.extendShortestPath fits nodes = .ok r) :
    r.dist = extendShortestPath nodes t.dist := by
  refine PathTables.extendShortestPath_rec
    (motive := fun t r => r.dist = extendShortestPath nodes t.dist) ?_ ?_ h
  · intro t t' r hpass _ ih
    have hdist := PathTables.extendPass_dist hpass
    rw [ih]
    nth_rewrite 2 [extendShortestPath]
    rw [← hdist, if_pos rfl]
  · intro t t' hpass
    have hdist := PathTables.extendPass_dist hpass
    rw [extendShortestPath, ← hdist, if_neg (by simp)]

/-! ## What the tables should hold -/

/-- **Shortest paths**: the distances are the least weights of paths, and the other two entries are
those of one path of this weight. -/
structure ShortestPathTables {n : ℕ} (weights : DistMatrix (Fin n)) (latencies : Fin n → Fin n → ℤ)
    (t : PathTables (Fin n)) : Prop where
  least : ∀ i j, IsLeast (Set.range fun ks => pathSum weights i ks j) (t.dist i j)
  recorded : ∀ i j, t.dist i j < weights i j → ∃ ks, pathSum weights i ks j = t.dist i j ∧
    ks.length = t.interSwitches i j ∧ pathSum latencies i ks j = t.latencies i j

/-- Bounds under which no sum overflows: each link weighs something, and the weights of two links
fit, also if each unit of weight stands for the greatest latency. -/
structure SumsFit {n : ℕ} (weights : DistMatrix (Fin n)) (latencies : Fin n → Fin n → ℤ)
    (latency : ℕ) : Prop where
  pos : ∀ i j, i ≠ j → 0 < weights i j
  latency_le : ∀ i j, i ≠ j → |latencies i j| ≤ latency
  fit : ∀ i j k, weights i k + weights k j < 2 ^ 31
  latency_fit : ∀ i j k, latency * (weights i k + weights k j) < 2 ^ 31

namespace SumsFit

variable {n : ℕ} {weights : DistMatrix (Fin n)} {latencies : Fin n → Fin n → ℤ} {latency : ℕ}

theorem bounded_start (h : SumsFit weights latencies latency) (hdiag : ∀ i, weights i i = 0) :
    (PathTables.start weights latencies).Bounded weights latency where
  diag := hdiag
  dist := fun _ _ => le_rfl
  inter := fun i j hij => by
    show 0 + 1 ≤ weights i j
    exact h.pos i j hij
  latencies := fun i j hij => by
    have hpos := h.pos i j hij
    refine (h.latency_le i j hij).trans ?_
    exact_mod_cast Nat.le_mul_of_pos_right latency hpos

theorem safe (h : SumsFit weights latencies latency) {t : PathTables (Fin n)}
    (ht : t.Bounded weights latency) : t.Safe fitsInt := by
  refine ⟨ht.diag, fun i j k => ?_⟩
  have hsum : t.dist i k + t.dist k j ≤ weights i k + weights k j :=
    add_le_add (ht.dist i k) (ht.dist k j)
  have hfit := h.fit i j k
  unfold fitsInt
  refine ⟨⟨by omega, by omega⟩, fun hki hkj => ⟨?_, ?_⟩⟩
  · have hik := ht.inter i k hki.symm
    have hkj' := ht.inter k j hkj
    exact ⟨by omega, by omega⟩
  · have hle : latency * (t.dist i k + t.dist k j) < 2 ^ 31 :=
      (Nat.mul_le_mul_left _ hsum).trans_lt (h.latency_fit i j k)
    have habs : |t.latencies i k + t.latencies k j| < 2 ^ 31 := by
      calc |t.latencies i k + t.latencies k j|
          ≤ |t.latencies i k| + |t.latencies k j| := abs_add_le ..
        _ ≤ latency * t.dist i k + latency * t.dist k j :=
            add_le_add (ht.latencies i k hki.symm) (ht.latencies k j hkj)
        _ = ((latency * (t.dist i k + t.dist k j) : ℕ) : ℤ) := by push_cast; ring
        _ < 2 ^ 31 := by exact_mod_cast hle
    have hbounds := abs_lt.mp habs
    exact ⟨hbounds.1.le, hbounds.2⟩

end SumsFit

/-- **The tables of a topology.**  With exact sums the loop ends with the shortest paths; with
`int` sums it ends with the same tables or in an overflow, and with the tables if the sums fit. -/
theorem shortest_paths_recorded {n : ℕ} (weights : DistMatrix (Fin n))
    (latencies : Fin n → Fin n → ℤ) (hdiag : ∀ i, weights i i = 0) :
    ∃ t, ShortestPathTables weights latencies t ∧
      (PathTables.start weights latencies).extendShortestPath fitsAny (List.finRange n) = .ok t ∧
      ((PathTables.start weights latencies).extendShortestPath fitsInt (List.finRange n) = .ok t ∨
        (PathTables.start weights latencies).extendShortestPath fitsInt (List.finRange n) =
          .error .undefined) ∧
      ∀ latency, SumsFit weights latencies latency →
        (PathTables.start weights latencies).extendShortestPath fitsInt (List.finRange n) =
          .ok t := by
  obtain ⟨t, ht⟩ := PathTables.exists_extendShortestPath_exact (finRange n)
    (PathTables.start weights latencies) hdiag
  have hrecorded : PathTables.Recorded weights latencies t := by
    refine PathTables.Recorded.extendShortestPath (fun i j => ?_) hdiag ht
    exact ⟨[], rfl, rfl, rfl⟩
  have hdist := dist_extendShortestPath ht
  have hint : _ = (PathTables.start weights latencies).extendShortestPath fitsAny (finRange n) ∨
      (PathTables.start weights latencies).extendShortestPath fitsInt (finRange n) = _ :=
    PathTables.extendShortestPath_exact_or _
  rw [ht] at hint
  refine ⟨t, ⟨fun i j => ⟨?_, ?_⟩, fun i j _ => hrecorded i j⟩, ht, hint, fun latency hfit => ?_⟩
  · obtain ⟨ks, hks, -⟩ := hrecorded i j
    exact ⟨ks, hks⟩
  · rintro _ ⟨ks, rfl⟩
    rw [hdist]
    exact le_pathSum (extendShortestPath_le _ weights)
      (fun i j k => extendShortestPath_triangle weights (mem_finRange i) (mem_finRange j)
        (mem_finRange k)) ks j i
  · obtain ⟨r, hr⟩ := PathTables.exists_extendShortestPath (finRange n) (fun t => hfit.safe)
      (fun t i j k ht => ht.detour) _ (hfit.bounded_start hdiag)
    rcases hint with hok | herr
    · exact hok
    · rw [hr] at herr
      cases herr

/-- Three switches in a row. -/
def lineWeights (i j : Fin 3) : ℕ :=
  if i = j then 0 else if i.val + 1 = j.val ∨ j.val + 1 = i.val then 1 else 10000

/-- The sums of three switches in a row fit. -/
theorem shortest_paths_recorded_line :
    ∃ t, ShortestPathTables lineWeights (fun i j => lineWeights i j) t ∧
      (PathTables.start lineWeights fun i j => lineWeights i j).extendShortestPath fitsInt
        (List.finRange 3) = .ok t := by
  obtain ⟨t, ht, -, -, hint⟩ :=
    shortest_paths_recorded lineWeights (fun i j => lineWeights i j) (by decide)
  exact ⟨t, ht, hint 10000 ⟨by decide +kernel, by decide +kernel, by decide +kernel,
    by decide +kernel⟩⟩

/-- Two links of the greatest weight: the way there and back does not fit. -/
def heavyTables : PathTables (Fin 2) :=
  PathTables.start (fun i j => if i = j then 0 else 2 ^ 31 - 1) fun _ _ => 1

theorem shortest_path_overflows :
    heavyTables.extendShortestPath fitsInt (List.finRange 2) = .error .undefined := by
  -- the first pair that is looked at is a switch and itself
  have hnodes : finRange 2 = [0, 1] := by decide
  have hhere : PathTables.tryDetour fitsInt heavyTables 0 0 ⟨0, none, fun _ _ => 0⟩ 0 =
      .ok ⟨0, none, fun _ _ => 0⟩ := by
    rw [PathTables.tryDetour, if_pos (by decide +kernel), if_pos (by decide +kernel)]
  have hthere : PathTables.tryDetour fitsInt heavyTables 0 0 ⟨0, none, fun _ _ => 0⟩ 1 =
      .error .undefined := if_neg (by decide +kernel)
  have hdetours : foldlM (PathTables.tryDetour fitsInt heavyTables 0 0)
      ⟨0, none, fun _ _ => 0⟩ (finRange 2) = .error .undefined := by
    simp only [hnodes, foldlM_cons, hhere, hthere, bind, Except.bind]
  have hpair : PathTables.extendPair fitsInt (finRange 2) (heavyTables, false) (0, 0) =
      .error .undefined := by
    have hstart : (⟨heavyTables.dist 0 0, none, heavyTables.interSwitches⟩ : Detour (Fin 2)) =
        ⟨0, none, fun _ _ => 0⟩ := rfl
    rw [PathTables.extendPair, hstart, hdetours]
    rfl
  have hpass : PathTables.extendPass fitsInt (finRange 2) heavyTables = .error .undefined := by
    have hpairs : finRange 2 ×ˢ finRange 2 = [(0, 0), (0, 1), (1, 0), (1, 1)] := by decide
    rw [PathTables.extendPass, hpairs, foldlM_cons, hpair]
    rfl
  rw [PathTables.extendShortestPath, hpass]
