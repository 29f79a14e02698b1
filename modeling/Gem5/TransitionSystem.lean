/-
# Runs of a labelled transition system

The general part of the development: a system is a relation `tr s l s'` ("label
`l` takes `s` to `s'`"), a run is a finite sequence of labelled steps, and a
property of all reachable states is proved from one preservation lemma.

* `Runs tr s ls s'`       — the labels `ls` lead from `s` to `s'`.
* `Runs.invariant`        — the induction rule for safety properties.
* `Runs.congr_of_invariant` — two systems with the same runs.
* `Runs.lift`             — a simulation that answers every step by a run.
* `Within step ok`        — the steps of an executable, fallible step function
                            that meet a side condition on the state before;
                            `Anytime` is no condition.
* `Runs.invariant_of_progress` — the induction rule for steps that cannot fail.
* `foldlM_invariant`, `exists_foldlM_eq_ok` — loops whose rounds can fail.
* `execWithin`            — the function that computes such a run, used to
                            exhibit concrete runs by evaluation.
-/
import Mathlib.Data.List.Basic

variable {σ τ ℓ κ ε : Type*}

/-! ## Runs and invariants -/

/-- The labels `ls`, taken one after the other, lead from the first state to the last. -/
inductive Runs (tr : σ → ℓ → σ → Prop) : σ → List ℓ → σ → Prop
  | refl (s : σ) : Runs tr s [] s
  | snoc {s t u : σ} {ls : List ℓ} {l : ℓ} :
      Runs tr s ls t → tr t l u → Runs tr s (ls ++ [l]) u

namespace Runs

variable {tr : σ → ℓ → σ → Prop} {s t u : σ} {ls ms : List ℓ}

/-- **The invariant rule**: what holds at the start and is kept by every step holds at
the end of every run. -/
theorem invariant {P : σ → Prop} (hstep : ∀ s l t, P s → tr s l t → P t)
    (h : Runs tr s ls t) (hs : P s) : P t := by
  induction h with
  | refl => exact hs
  | snoc _ hl ih => exact hstep _ _ _ ih hl

theorem single {l : ℓ} (h : tr s l t) : Runs tr s [l] t := by
  simpa using Runs.snoc (Runs.refl s) h

theorem append (h₁ : Runs tr s ls t) (h₂ : Runs tr t ms u) : Runs tr s (ls ++ ms) u := by
  induction h₂ with
  | refl => simpa using h₁
  | snoc _ hl ih => simpa [List.append_assoc] using Runs.snoc ih hl

theorem cons {l : ℓ} (h : tr s l t) (ht : Runs tr t ls u) : Runs tr s (l :: ls) u := by
  simpa using (single h).append ht

/-- Two systems whose steps agree wherever an invariant of the first holds have the same runs. -/
theorem congr_of_invariant {tr' : σ → ℓ → σ → Prop} {P : σ → Prop}
    (hagree : ∀ s l t, P s → (tr s l t ↔ tr' s l t)) (hstep : ∀ s l t, P s → tr s l t → P t)
    (hs : P s) : Runs tr s ls t ↔ Runs tr' s ls t := by
  constructor
  · intro h
    induction h with
    | refl => exact .refl _
    | snoc hrun hl ih => exact .snoc ih ((hagree _ _ _ (hrun.invariant hstep hs)).mp hl)
  · intro h
    induction h with
    | refl => exact .refl _
    | snoc _ hl ih => exact .snoc ih ((hagree _ _ _ (ih.invariant hstep hs)).mpr hl)

/-- **Simulation by runs**: if every step is answered, through `f`, by a run of a second
system, then so is every run. -/
theorem lift {tr' : τ → κ → τ → Prop} {f : σ → τ}
    (hsim : ∀ s l t, tr s l t → ∃ ks, Runs tr' (f s) ks (f t)) (h : Runs tr s ls t) :
    ∃ ks, Runs tr' (f s) ks (f t) := by
  induction h with
  | refl => exact ⟨[], .refl _⟩
  | snoc _ hl ih =>
    obtain ⟨ks, hks⟩ := ih
    obtain ⟨ks', hks'⟩ := hsim _ _ _ hl
    exact ⟨ks ++ ks', hks.append hks'⟩

end Runs

/-! ## Executable step functions -/

/-- A computation that has succeeded hands its result on. -/
theorem Except.ok_bind {α β : Type} (a : α) (f : α → Except ε β) : (.ok a >>= f) = f a := rfl

/-- A sequence of computations succeeds if both do. -/
theorem Except.bind_eq_ok {α β : Type} {x : Except ε α} {f : α → Except ε β} {b : β}
    (h : x >>= f = .ok b) : ∃ a, x = .ok a ∧ f a = .ok b := by
  cases x with
  | error e => cases h
  | ok a => exact ⟨a, rfl, h⟩

theorem Except.bind_pure_eq_ok {α β : Type} {x : Except ε α} {f : α → β} {b : β}
    (h : (do let a ← x; pure (f a)) = .ok b) : ∃ a, x = .ok a ∧ f a = b := by
  obtain ⟨a, ha, h⟩ := Except.bind_eq_ok h
  exact ⟨a, ha, Except.ok.inj h⟩

theorem Except.map_eq_ok {α β : Type} {x : Except ε α} {f : α → β} {b : β}
    (h : x.map f = .ok b) : ∃ a, x = .ok a ∧ f a = b := by
  cases x with
  | error e => cases h
  | ok a => exact ⟨a, rfl, Except.ok.inj h⟩

/-- Sequences of computations that agree or fail agree or fail. -/
theorem Except.bind_eq_or_error {α β : Type} {e : ε} {x y : Except ε α} {f g : α → Except ε β}
    (hxy : x = y ∨ x = .error e) (hfg : ∀ a, f a = g a ∨ f a = .error e) :
    x >>= f = y >>= g ∨ x >>= f = .error e := by
  rcases hxy with rfl | rfl
  · cases x with
    | error e' => exact .inl rfl
    | ok a => exact hfg a
  · exact .inr rfl

/-- A loop whose rounds agree with those of another or fail. -/
theorem foldlM_eq_or_error {σ β : Type} {e : ε} {f g : σ → β → Except ε σ}
    (hfg : ∀ s b, f s b = g s b ∨ f s b = .error e) (l : List β) :
    ∀ s, l.foldlM f s = l.foldlM g s ∨ l.foldlM f s = .error e := by
  induction l with
  | nil => exact fun s => .inl rfl
  | cons b l ih =>
    intro s
    rw [List.foldlM_cons, List.foldlM_cons]
    exact Except.bind_eq_or_error (hfg s b) ih

/-- What every round keeps, the loop keeps. -/
theorem foldlM_invariant {σ β : Type} {f : σ → β → Except ε σ} {P : σ → Prop}
    (hf : ∀ s b s', P s → f s b = .ok s' → P s') (l : List β) :
    ∀ {s s'}, P s → l.foldlM f s = .ok s' → P s' := by
  induction l with
  | nil =>
    intro s s' hs h
    cases h
    exact hs
  | cons b l ih =>
    intro s s' hs h
    rw [List.foldlM_cons] at h
    obtain ⟨s₁, h₁, h⟩ := Except.bind_eq_ok h
    exact ih (hf s b s₁ hs h₁) h

/-- A loop whose rounds are, through `g`, those of a loop that cannot fail. -/
theorem foldlM_eq_foldl {σ τ β : Type} {f : σ → β → Except ε σ} {g : σ → τ} {h : τ → β → τ}
    (hf : ∀ s b s', f s b = .ok s' → g s' = h (g s) b) (l : List β) :
    ∀ {s s'}, l.foldlM f s = .ok s' → g s' = l.foldl h (g s) := by
  induction l with
  | nil =>
    intro s s' hs
    cases hs
    rfl
  | cons b l ih =>
    intro s s' hs
    rw [List.foldlM_cons] at hs
    obtain ⟨s₁, h₁, hs⟩ := Except.bind_eq_ok hs
    rw [ih hs, hf s b s₁ h₁, List.foldl_cons]

/-- A loop whose rounds do not fail while an invariant holds does not fail. -/
theorem exists_foldlM_eq_ok {σ β : Type} {f : σ → β → Except ε σ} {P : σ → Prop} (l : List β)
    (hf : ∀ s, ∀ b ∈ l, P s → ∃ s', f s b = .ok s' ∧ P s') :
    ∀ s, P s → ∃ s', l.foldlM f s = .ok s' ∧ P s' := by
  induction l with
  | nil => exact fun s hs => ⟨s, rfl, hs⟩
  | cons b l ih =>
    intro s hs
    obtain ⟨s₁, h₁, hs₁⟩ := hf s b List.mem_cons_self hs
    rw [List.foldlM_cons, h₁]
    exact ih (fun s b hb => hf s b (List.mem_cons_of_mem _ hb)) s₁ hs₁

/-- Why a call does not return: a failed assertion or a `panic`, or an access that the language
leaves undefined. -/
inductive Abort
  | assertion
  | undefined
  deriving DecidableEq, Repr

/-- The steps of a fallible step function from states where the side condition holds. -/
def Within (step : σ → ℓ → Except ε σ) (ok : σ → ℓ → Prop) (s : σ) (l : ℓ) (t : σ) : Prop :=
  ok s l ∧ step s l = .ok t

/-- The invariant rule for a step function that does not fail where the invariant and the side
condition hold. -/
theorem Runs.invariant_of_progress {step : σ → ℓ → Except ε σ} {ok : σ → ℓ → Prop} {P : σ → Prop}
    {s t : σ} {ls : List ℓ} (hstep : ∀ s l, P s → ok s l → ∃ t, step s l = .ok t ∧ P t)
    (h : Runs (Within step ok) s ls t) (hs : P s) : P t := by
  refine h.invariant ?_ hs
  rintro s l t hs ⟨hok, hl⟩
  obtain ⟨t', ht', hP⟩ := hstep s l hs hok
  rw [hl] at ht'
  cases ht'
  exact hP

/-- No side condition. -/
def Anytime (_ : σ) (_ : ℓ) : Prop := True

instance (s : σ) (l : ℓ) : Decidable (Anytime s l) := inferInstanceAs (Decidable True)

/-- Take the labels one after the other, stopping at the first that fails or does not
meet the side condition. -/
def execWithin (step : σ → ℓ → Except ε σ) (ok : σ → ℓ → Prop) [∀ s l, Decidable (ok s l)] :
    σ → List ℓ → Option σ
  | s, [] => some s
  | s, l :: ls =>
    if ok s l then
      match step s l with
      | .ok t => execWithin step ok t ls
      | .error _ => none
    else none

section

variable {step : σ → ℓ → Except ε σ} {ok : σ → ℓ → Prop}

theorem runs_of_execWithin [∀ s l, Decidable (ok s l)] {s t : σ} {ls : List ℓ}
    (h : execWithin step ok s ls = some t) : Runs (Within step ok) s ls t := by
  induction ls generalizing s with
  | nil =>
    simp only [execWithin, Option.some.injEq] at h
    exact h ▸ .refl _
  | cons l ls ih =>
    simp only [execWithin] at h
    split at h
    · rename_i hok
      split at h
      · rename_i u hu
        exact .cons ⟨hok, hu⟩ (ih h)
      · exact absurd h (by simp)
    · exact absurd h (by simp)

/-- A computed run, with a property of its last state that is checked by evaluation. -/
theorem exists_runs_of_execWithin [∀ s l, Decidable (ok s l)] {P : σ → Prop} [DecidablePred P] {s : σ} {ls : List ℓ}
    (h : (execWithin step ok s ls).any (fun t => decide (P t)) = true) :
    ∃ t, Runs (Within step ok) s ls t ∧ P t := by
  cases ht : execWithin step ok s ls with
  | none =>
    rw [ht] at h
    cases h
  | some t =>
    rw [ht] at h
    exact ⟨t, runs_of_execWithin ht, of_decide_eq_true h⟩

/-- A computed run, with what follows for its last state from a property that is checked by
evaluation. -/
theorem exists_runs_imp_of_execWithin [∀ s l, Decidable (ok s l)] {P Q : σ → Prop} [DecidablePred P] {s : σ} {ls : List ℓ}
    (h : (execWithin step ok s ls).any (fun t => decide (P t)) = true)
    (himp : ∀ t, Runs (Within step ok) s ls t → P t → Q t) :
    ∃ t, Runs (Within step ok) s ls t ∧ Q t := by
  obtain ⟨t, hrun, hP⟩ := exists_runs_of_execWithin h
  exact ⟨t, hrun, himp t hrun hP⟩

/-- The same if the property is wanted as well. -/
theorem exists_runs_and_of_execWithin [∀ s l, Decidable (ok s l)] {P Q : σ → Prop} [DecidablePred P] {s : σ} {ls : List ℓ}
    (h : (execWithin step ok s ls).any (fun t => decide (P t)) = true)
    (himp : ∀ t, Runs (Within step ok) s ls t → P t → Q t) :
    ∃ t, Runs (Within step ok) s ls t ∧ P t ∧ Q t :=
  exists_runs_imp_of_execWithin h fun t hrun hP => ⟨hP, himp t hrun hP⟩

/-- A computed run in two parts, with a property of the states in between and at the end. -/
theorem exists_runs_append_of_execWithin [∀ s l, Decidable (ok s l)] {P : σ → σ → Prop} [∀ t u, Decidable (P t u)] {s : σ}
    {ls ms : List ℓ}
    (h : (execWithin step ok s ls).any (fun t =>
      (execWithin step ok t ms).any fun u => decide (P t u)) = true) :
    ∃ t u, Runs (Within step ok) s ls t ∧ Runs (Within step ok) t ms u ∧ P t u := by
  cases ht : execWithin step ok s ls with
  | none =>
    rw [ht] at h
    cases h
  | some t =>
    rw [ht] at h
    obtain ⟨u, hu, hP⟩ := exists_runs_of_execWithin h
    exact ⟨t, u, runs_of_execWithin ht, hu, hP⟩

end

