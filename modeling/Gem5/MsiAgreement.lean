/-
# Agreement in MSI

What holds of a whole line without requests under way, in any order of delivery.
-/
import Gem5.MsiSingleWriter

variable {n : ℕ} {β : Type}

/-! ## Nothing under way -/

/-- No request for the line and no memory access or answer for one is under way. -/
def Line.Quiet (s : Line n β) : Prop :=
  (∀ c, (s.cores c).requestFromCache = [] ∧ (s.cores c).requestFromCacheWB = 0 ∧
    (s.cores c).requestToCache = [] ∧ (s.cores c).requestToCacheWB = [] ∧
    (s.cores c).responseToCache = []) ∧
  s.dir.requestToDir = [] ∧ s.dir.stalled = [] ∧ s.dir.requestToMemory = [] ∧
    s.dir.responseFromMemory = []

instance (s : Line n β) : Decidable s.Quiet := inferInstanceAs (Decidable (_ ∧ _))

def CacheState.stable : CacheState → Bool
  | .I | .S | .M | .M_L => true
  | _ => false

/-- In a state with nothing outstanding no request is pending. -/
theorem CacheState.stable_of_tally {s : CacheState} (hl : s.live = true) (hp : s.tally.putm = 0)
    (hu : s.tally.upg = 0) (hg : s.tally.gets = 0) (hm : s.tally.getmLeast = 0)
    (hd : s.tally.data = 0) : s.stable = true ∧ s.pending = .none := by
  revert s
  decide

/-- What the mandatory queue may hold is served in the stable states. -/
theorem msiCache_mandatory {s : CacheState} (hs : s.stable = true) {t : RubyRequestType}
    (ht : t = .Locked_RMW_Write ↔ s = .M_L) : (msiCache s t.toEvent).isSome = true := by
  cases t <;> revert s <;> decide

section

variable [Inhabited β] {b : β} {ls : List (Label n β)} {s : Line n β}

/-- **A quiet line waits for nobody.**  In any order of delivery: every L1 is in a stable
state, and a request without a callback is in the mandatory queue and leaves it when served. -/
theorem quiet_line_stable (h : Runs (Within (Line.step msi) Anytime) (Line.init n b) ls s)
    (hq : s.Quiet) (c : Fin n) :
    (s.cores c).state.stable = true ∧ ∀ r, (s.cores c).request = some r →
      (s.cores c).inMandatoryQueue = true ∧ ∃ t, s.step msi (.mandatory c) = .ok t ∧
        (t.cores c).inMandatoryQueue = false := by
  have hs : s.Accounted False := Line.accounted_of_runs (fun _ _ _ => False.elim) h
  have hcounts := (hs.core c).counts
  have hok := (hs.core c).ok
  obtain ⟨hcores, hdir⟩ := hq
  obtain ⟨h₁, h₂, h₃, h₄, h₅⟩ := hcores c
  obtain ⟨hstable, hnone⟩ : (s.cores c).state.stable = true ∧ (s.cores c).state.pending = .none := by
    have hnil : ∀ p, (s.cores c).undelivered c p = 0 := fun p => by
      rw [L1.undelivered, h₁, h₃, List.countP_nil, List.countP_nil]
    refine CacheState.stable_of_tally hok.live ?_ ?_ ?_ ?_ ?_
    · rw [← hcounts.putm, L1.undeliveredPutm, h₂, h₄, List.countP_nil]
    · rw [← hcounts.upg, hnil]
    · rw [← hcounts.gets, hnil]
    · exact Nat.le_zero.mp (hnil _ ▸ hcounts.getmLeast)
    · rw [← hs.promised c, L1.promised, Dir.promised, h₁, h₅, hdir.1, hdir.2.1, hdir.2.2.1,
        hdir.2.2.2]
      rfl
  refine ⟨hstable, fun r hr => ?_⟩
  have hreq := hok.request
  simp only [L1.RequestOk, hr, hnone] at hreq
  by_cases hmq : (s.cores c).inMandatoryQueue = true
  · rw [if_pos hmq] at hreq
    obtain ⟨t, ht⟩ := Option.isSome_iff_exists.mp (msiCache_mandatory hstable hreq.2)
    have hx : (s.cores c).trigger msi c .mandatory r.type.toEvent = _ := congrArg (Option.map _) ht
    refine ⟨hmq, s.commit c ((s.cores c).fire c .mandatory t), ?_, ?_⟩
    · simp only [Line.step, Line.serveMandatory, Line.serve, hr, if_pos hmq,
        Msi.grantSilently_eq hok, hx, Option.map_some]
    · simp only [Line.commit, if_true]
      cases msi_processor hok hr hmq hx with
      | stall hs => rcases hs with hs | hs <;> rw [hs] at hstable <;> cases hstable
      | _ => simp only [*]
  · rw [if_neg hmq] at hreq
    exact absurd rfl hreq.2

/-- Core 0 has stored, and its load is in the queue. -/
theorem quiet_line_stable_after_store :
    ∃ s : Line 2 ℕ, Runs (Within (Line.step msi) Anytime) (Line.init 2 0)
        [.issue 0 ⟨.ST, fun _ => 1⟩, .mandatory 0, .order 0 0, .request 1 0, .request 0 0,
          .dirRequest 0, .memory, .dirMemory, .response 0 0, .issue 0 ⟨.LD, id⟩] s ∧
      s.Quiet ∧ (s.cores 0).request.isSome ∧ ∃ t, s.step msi (.mandatory 0) = .ok t ∧
        (t.cores 0).inMandatoryQueue = false := by
  refine exists_runs_imp_of_execWithin (P := fun s : Line 2 ℕ =>
    s.Quiet ∧ (s.cores 0).request.isSome) (by decide +kernel) ?_
  intro s hs ⟨hq, hr⟩
  obtain ⟨r, hr'⟩ := Option.isSome_iff_exists.mp hr
  exact ⟨hq, hr, ((quiet_line_stable hs hq 0).2 r hr').2⟩

end
