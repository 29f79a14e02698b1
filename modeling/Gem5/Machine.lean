/-
# All lines together

The lines of a machine run side by side; a step is a step of one line.  Three
things tie the lines of a core together: its Sequencer has one request
outstanding, its controller's counter `is_blocked` collects the atomic messages
of all lines and closes the mandatory queue, and a line is replaced only for a
request to another line.  Between the two halves of a locked read-modify-write
the Sequencer refuses other requests for the same line only, so a core may open
a second window on another line.

Every line of a machine makes a run of its own (`Machine.runs_line`), so what
holds of all runs of a single line holds of every line of a machine.
-/
import Gem5.SnoopBus
import Mathlib.Algebra.BigOperators.Group.Finset.Basic
import Mathlib.Data.Fintype.BigOperators

/-- `n` cores and the lines at the addresses `α`. -/
structure Machine (n : ℕ) (α β : Type) where
  lines : α → Line n β

namespace Machine

variable {n : ℕ} {α β : Type}

/-- The record of L1 `c` for the line at `a`. -/
def l1 (s : Machine n α β) (a : α) (c : Fin n) : L1 n β := (s.lines a).cores c

/-- All L1s and directories in `I`. -/
def init [Inhabited β] (n : ℕ) (mem : α → β) : Machine n α β where
  lines := fun a => Line.init n (mem a)

variable [Fintype α] [DecidableEq α]

/-- The counter `is_blocked` of L1 `c`. -/
def isBlocked (s : Machine n α β) (c : Fin n) : ℤ := ∑ a, (s.l1 a c).isBlocked

/-- What the other lines must allow for the step `k` of line `a`. -/
def Allows (s : Machine n α β) (a : α) : Label n β → Prop
  | .issue c _ => ∀ b, (s.l1 b c).request.isNone = true
  | .mandatory c =>
    s.isBlocked c = 0 ∨ ∃ r ∈ (s.l1 a c).request, r.type = .Locked_RMW_Write
  | .replacement c =>
    s.isBlocked c = 0 ∧ ∃ b, b ≠ a ∧ (s.l1 b c).inMandatoryQueue = true ∧ (s.l1 b c).valid = false
  | _ => True

instance (s : Machine n α β) (a : α) : (k : Label n β) → Decidable (s.Allows a k)
  | .issue c _ => inferInstanceAs (Decidable (∀ b, (s.l1 b c).request.isNone = true))
  | .mandatory c => inferInstanceAs (Decidable (s.isBlocked c = 0 ∨
      ∃ r ∈ (s.l1 a c).request, r.type = .Locked_RMW_Write))
  | .replacement c => inferInstanceAs (Decidable (s.isBlocked c = 0 ∧
      ∃ b, b ≠ a ∧ (s.l1 b c).inMandatoryQueue = true ∧ (s.l1 b c).valid = false))
  | .order _ _ | .orderWB _ | .request _ _ | .requestWB _ _ | .response _ _ | .atomic _ _
  | .wakeUp _ | .dirRequest _ | .dirRequestWB _ | .dirResponse _ | .memory | .dirMemory =>
    inferInstanceAs (Decidable True)

/-- One step of the line at `k.1`, by the step function `f` of lines. -/
def step (f : Line n β → Label n β → Except (Fault n) (Line n β)) (s : Machine n α β)
    (k : α × Label n β) : Except (Fault n) (Machine n α β) :=
  if s.Allows k.1 k.2 then
    (f (s.lines k.1) k.2).map fun t => { lines := Function.update s.lines k.1 t }
  else .error .disabled

/-- A discipline of the bus, line by line. -/
def Each (ok : Line n β → Label n β → Prop) (s : Machine n α β) (k : α × Label n β) : Prop :=
  ok (s.lines k.1) k.2

instance (ok : Line n β → Label n β → Prop) [∀ s k, Decidable (ok s k)] (s : Machine n α β)
    (k : α × Label n β) : Decidable (s.Each ok k) :=
  inferInstanceAs (Decidable (ok _ _))

variable {f : Line n β → Label n β → Except (Fault n) (Line n β)}
  {ok : Line n β → Label n β → Prop} {s t : Machine n α β} {k : α × Label n β}
  {ks : List (α × Label n β)}

/-- A step changes one line, by a step of that line. -/
theorem step_eq_ok (h : s.step f k = .ok t) :
    s.Allows k.1 k.2 ∧ ∃ u, f (s.lines k.1) k.2 = .ok u ∧
      t.lines = Function.update s.lines k.1 u := by
  unfold step at h
  split at h
  · refine ⟨‹_›, ?_⟩
    cases hf : f (s.lines k.1) k.2 with
    | error e =>
      rw [hf] at h
      cases h
    | ok u =>
      rw [hf] at h
      cases h
      exact ⟨u, rfl, rfl⟩
  · cases h

/-- Every line of a run of the machine makes a run of its own. -/
theorem runs_line (h : Runs (Within (step f) (Each ok)) s ks t) (a : α) :
    ∃ ls, Runs (Within f ok) (s.lines a) ls (t.lines a) := by
  refine Runs.lift (f := fun s : Machine n α β => s.lines a) ?_ h
  intro s k t ⟨hok, hk⟩
  obtain ⟨-, u, hu, ht⟩ := step_eq_ok hk
  by_cases ha : a = k.1
  · subst ha
    refine ⟨[k.2], ?_⟩
    simp only [ht, Function.update_self]
    exact .single ⟨hok, hu⟩
  · refine ⟨[], ?_⟩
    simp only [ht, Function.update_of_ne ha]
    exact .refl _

end Machine
