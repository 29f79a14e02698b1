/-
# The memory checker sees values out of thin air

A read may return a value that nothing has produced: no write of it was started, or
every such write was aborted, and no earlier read returned it.  The checker rejects the
read if a write had completed before it started (`checker_detects_thin_air`).

There are three ways in which `inExpectedData` can accept a value without a match: it
takes all writes to overlap the read, it has nothing to expect, or what it knew was
pruned.  None is open, since what the pruning leaves always has a completed write
that is at most as late as the ticks from which it will be asked (`KnownBy`).

Here nothing is assumed of the data, so the register of `CheckedByte` and the points at
which a write takes effect play no part.  Ties are allowed, and so are calls for
transactions that the tracker does not know; only a write that has completed is not
completed or aborted again.

* `inExpectedData_of_unknown` — the scan for a value that is nowhere.
* `ByteHistory`              — what was reported of the byte.
* `Recorded`                 — the tracker has what it needs of the history.
-/
import Gem5.MemCheckerSound
import Mathlib

open List

namespace MemChecker

/-! ## The scan for a value that is nowhere -/

section Scan

variable {o w : Transaction} {start complete : ℕ} {v : UInt8} {s s' s₁ : Scan}
  {ws ws₁ ws₂ : Transaction → Prop}

/-- What the scan of some writes has found out, when none of them has the value. -/
structure Passed (o : Transaction) (start : ℕ) (writes : Transaction → Prop) (s s' : Scan) :
    Prop where
  expects : (s.wcOverlap = false → s.lastExpectedData ≠ []) →
    s'.wcOverlap = false → s'.lastExpectedData ≠ []
  stopped : s.wcOverlap = false → s'.wcOverlap = false
  stops : (∃ w, writes w ∧ Stops o start w) → s'.wcOverlap = false
  valid : s'.lastObsValid = s.lastObsValid ∨ s'.wcOverlap = false

theorem Passed.trans (h₁ : Passed o start ws₁ s s₁) (h₂ : Passed o start ws₂ s₁ s')
    (hws : ∀ w, ws w → ws₁ w ∨ ws₂ w) : Passed o start ws s s' where
  expects h := h₂.expects (h₁.expects h)
  stopped h := h₂.stopped (h₁.stopped h)
  stops := by
    rintro ⟨w, hw, hstop⟩
    rcases hws w hw with hw | hw
    · exact h₂.stopped (h₁.stops ⟨w, hw, hstop⟩)
    · exact h₂.stops ⟨w, hw, hstop⟩
  valid := by
    rcases h₂.valid with hv | hv
    · rw [hv]
      exact h₁.valid.imp_right h₂.stopped
    · exact .inr hv

theorem scanWrite_passed (hdata : w.data ≠ v) (s : Scan) :
    ∃ s', scanWrite o start v s w = some s' ∧ Passed o start (· = w) s s' := by
  rw [scanWrite]
  by_cases hskip : w.complete < o.start
  · rw [if_pos hskip]
    refine ⟨s, rfl, fun h => h, fun h => h, ?_, .inl rfl⟩
    rintro ⟨u, rfl, hstop⟩
    exact absurd hskip hstop.1
  rw [if_neg hskip, if_neg hdata]
  split_ifs with hover
  · refine ⟨_, rfl, fun _ _ => by simp, fun h => h, ?_, .inl rfl⟩
    rintro ⟨u, rfl, hstop⟩
    exact absurd hstop.2 (not_le.mpr hover)
  · exact ⟨_, rfl, fun _ _ => by simp, fun _ => rfl, fun _ => rfl, .inr rfl⟩

theorem scanWrites_passed {writes : List Transaction} (hdata : ∀ w ∈ writes, w.data ≠ v) :
    ∀ s, ∃ s', writes.foldlM (scanWrite o start v) s = some s' ∧
      Passed o start (· ∈ writes) s s' := by
  induction writes with
  | nil =>
    intro s
    refine ⟨s, rfl, fun h => h, fun h => h, ?_, .inl rfl⟩
    rintro ⟨w, hw, -⟩
    exact absurd hw not_mem_nil
  | cons w writes ih =>
    intro s
    obtain ⟨s₁, hw, h₁⟩ := scanWrite_passed (hdata w mem_cons_self) s
    obtain ⟨s', hws, h₂⟩ := ih (fun u hu => hdata u (mem_cons_of_mem _ hu)) s₁
    refine ⟨s', ?_, h₁.trans h₂ fun u hu => mem_cons.mp hu⟩
    rw [foldlM_cons, hw]
    exact hws

theorem scanClusters_passed {cl : List WriteCluster} (hdata : ∀ w, Tracked cl w → w.data ≠ v) :
    ∀ s, ∃ s', scanClusters o start v s cl = some s' ∧ Passed o start (Tracked cl) s s' := by
  induction cl with
  | nil =>
    intro s
    refine ⟨s, rfl, fun h => h, fun h => h, ?_, .inl rfl⟩
    rintro ⟨w, ⟨c, hc, -⟩, -⟩
    exact absurd hc not_mem_nil
  | cons c cl ih =>
    intro s
    rw [scanClusters]
    by_cases hover : s.wcOverlap = true
    · obtain ⟨s₁, hc, h₁⟩ := scanWrites_passed (fun w hw => hdata w (.of_head hw)) s
      obtain ⟨s', hcl, h₂⟩ := ih (fun w hw => hdata w hw.of_tail) s₁
      refine ⟨s', ?_, h₁.trans h₂ fun w hw => tracked_cons.mp hw⟩
      rw [if_pos hover, hc]
      exact hcl
    · -- the scan has stopped
      have hstop : s.wcOverlap = false := Bool.not_eq_true _ ▸ hover
      rw [if_neg hover]
      exact ⟨s, rfl, fun h => h, fun h => h, fun _ => hstop, .inl rfl⟩

theorem unmatched_eq_false {expected : List UInt8} (h : expected ≠ []) :
    ByteTracker.unmatched o expected = .ok false := by
  rw [ByteTracker.unmatched, if_neg h]

/-- **A value that is nowhere is rejected** if a write completed before the read. -/
theorem inExpectedData_of_unknown {t : ByteTracker} (ho : t.lastObservation start = .ok o)
    (hspan : o.start ≤ o.complete) (hstart : o.complete = tickInitial ∨ o.complete < start)
    (hobs : o.complete ≠ tickInitial → o.data ≠ v)
    (hdata : ∀ w, Tracked t.writeClusters w → w.data ≠ v)
    (hpast : ∃ w, Tracked t.writeClusters w ∧ w.complete ≤ start) :
    t.inExpectedData start complete v = .ok false := by
  obtain ⟨s, hs, hpassed⟩ : ∃ s, scanClusters o start v
      { lastObsValid := decide (o.complete ≠ tickInitial) } t.writeClusters = some s ∧
      Passed o start (Tracked t.writeClusters)
        { lastObsValid := decide (o.complete ≠ tickInitial) } s := scanClusters_passed hdata _
  have hexpects : s.wcOverlap = false → s.lastExpectedData ≠ [] := by
    apply hpassed.expects
    intro h
    cases h
  rw [ByteTracker.inExpectedData, ho]
  dsimp only [bind, Except.bind]
  rw [hs]
  dsimp only
  rw [ByteTracker.afterScan]
  by_cases hinitial : o.complete = tickInitial
  · -- nothing was observed, and the write that completed ends the scan
    have hinvalid : ¬ s.lastObsValid = true := by
      rw [(scanClusters_scanned hs).invalid (by simpa using hinitial)]
      exact Bool.false_ne_true
    have hstop : s.wcOverlap = false := by
      obtain ⟨w, hw, hle⟩ := hpast
      have hzero : o.complete = 0 := hinitial
      have hskip : ¬ Skipped o w := by
        apply not_lt.mpr
        omega
      exact hpassed.stops ⟨w, hw, hskip, hle⟩
    rw [if_neg hinvalid, if_neg (by simp [hstop])]
    exact unmatched_eq_false (hexpects hstop)
  · by_cases hvalid : s.lastObsValid = true
    · rw [if_pos hvalid, if_pos (by omega), if_neg (hobs hinitial)]
      exact unmatched_eq_false (by simp)
    · -- a write outdates the observation
      have hstop : s.wcOverlap = false := by
        apply hpassed.valid.resolve_left
        intro hkept
        exact hvalid (hkept.trans (by simpa using hinitial))
      rw [if_neg hvalid, if_neg (by simp [hstop])]
      exact unmatched_eq_false (hexpects hstop)

end Scan

/-! ## What was reported -/

/-- The writes in flight and the completed ones, the reads in flight, each with whether a write had
completed before it started, and the values that were read. -/
structure ByteHistory where
  inFlight : List (ℕ × UInt8) := []
  completed : List (ℕ × UInt8) := []
  reading : List (ℕ × Bool) := []
  valuesRead : List UInt8 := []
  deriving DecidableEq, Repr

namespace ByteHistory

/-- A transaction that starts has the serial `next`. -/
def after (g : ByteHistory) (next : ℕ) : CheckerEvent → ByteHistory
  | .startRead _ => { g with reading := (next, !g.completed.isEmpty) :: g.reading }
  | .completeRead serial _ data =>
    { g with
      reading := g.reading.filter fun p => p.1 ≠ serial
      valuesRead := (g.reading.filter fun p => p.1 = serial).map (fun _ => data) ++ g.valuesRead }
  | .startWrite _ data => { g with inFlight := (next, data) :: g.inFlight }
  | .completeWrite serial _ =>
    { g with
      inFlight := g.inFlight.filter fun p => p.1 ≠ serial
      completed := (g.inFlight.filter fun p => p.1 = serial) ++ g.completed }
  | .abortWrite serial => { g with inFlight := g.inFlight.filter fun p => p.1 ≠ serial }
  | .effect _ => g
  | .startOther => g

/-- A write of the value was started and not aborted. -/
def Written (g : ByteHistory) (v : UInt8) : Prop :=
  ∃ p ∈ g.inFlight ++ g.completed, p.2 = v

/-- A write that has completed is not completed or aborted again. -/
def Once (g : ByteHistory) : CheckerEvent → Prop
  | .completeWrite serial _ => ∀ p ∈ g.completed, p.1 ≠ serial
  | .abortWrite serial => ∀ p ∈ g.completed, p.1 ≠ serial
  | _ => True

instance (g : ByteHistory) (v : UInt8) : Decidable (g.Written v) := by
  unfold Written
  infer_instance

instance (g : ByteHistory) : DecidablePred g.Once
  | .completeWrite _ _ | .abortWrite _ => inferInstanceAs (Decidable (∀ p ∈ g.completed, _))
  | .startRead _ | .completeRead _ _ _ | .startWrite _ _ | .effect _ | .startOther =>
    inferInstanceAs (Decidable True)

end ByteHistory

/-- The byte under the checker with its history. -/
structure WatchedByte where
  byte : CheckedByte
  history : ByteHistory := {}

namespace WatchedByte

def step (s : WatchedByte) (e : CheckerEvent) : Except Abort WatchedByte :=
  (s.byte.step e).map fun byte => { byte, history := s.history.after s.byte.nextSerial e }

/-- The calls are reported in the order of the ticks. -/
def Reported (s : WatchedByte) (e : CheckerEvent) : Prop :=
  s.byte.now ≤ s.byte.tickOf e ∧ s.byte.tickOf e ≤ tickFuture ∧ s.history.Once e

instance (s : WatchedByte) (e : CheckerEvent) : Decidable (s.Reported e) := by
  unfold Reported
  infer_instance

def initial (value : UInt8) : WatchedByte where
  byte := CheckedByte.initial value

end WatchedByte

/-! ## The invariant -/

/-- The write is one of those reported. -/
def Listed (l : List (ℕ × UInt8)) (w : Transaction) : Prop := (w.serial, w.data) ∈ l

/-- The serial is one of those reported. -/
def HasSerial (l : List (ℕ × UInt8)) (serial : ℕ) : Prop := ∃ p ∈ l, p.1 = serial

instance (l : List (ℕ × UInt8)) (serial : ℕ) : Decidable (HasSerial l serial) := by
  unfold HasSerial
  infer_instance

theorem hasSerial_cons {l : List (ℕ × UInt8)} {serial n : ℕ} {v : UInt8} :
    HasSerial ((serial, v) :: l) n ↔ serial = n ∨ HasSerial l n := by
  rw [HasSerial, exists_mem_cons_iff]
  rfl

theorem hasSerial_filter {l : List (ℕ × UInt8)} {serial n : ℕ} :
    HasSerial (l.filter fun p => p.1 ≠ serial) n ↔ HasSerial l n ∧ n ≠ serial := by
  constructor
  · rintro ⟨p, hp, rfl⟩
    obtain ⟨hp, hne⟩ := mem_filter.mp hp
    exact ⟨⟨p, hp, rfl⟩, of_decide_eq_true hne⟩
  · rintro ⟨⟨p, hp, rfl⟩, hne⟩
    exact ⟨p, mem_filter.mpr ⟨hp, decide_eq_true hne⟩, rfl⟩

/-- The cluster for new writes has all writes in flight and counts them; the older ones have
completed writes only.  A complete cluster has a write. -/
structure WritesRecorded (g : ByteHistory) (c : WriteCluster) (rest : List WriteCluster) :
    Prop where
  serials : (c.writes.map Transaction.serial).Nodup
  recorded : ∀ w ∈ c.writes, Listed g.inFlight w ∨ Listed g.completed w
  count : c.numIncomplete = c.writes.countP fun w => HasSerial g.inFlight w.serial
  inHead : ∀ p ∈ g.inFlight, ∃ w ∈ c.writes, w.serial = p.1
  max : ∀ w ∈ c.writes, Listed g.completed w → w.complete ≤ c.completeMax
  closed : c.complete ≠ tickFuture → c.numIncomplete = 0 ∧ ∃ w ∈ c.writes, w.complete ≤ c.complete
  older : ∀ d ∈ rest, ∀ w ∈ d.writes, Listed g.completed w
  olderClosed : ∀ d ∈ rest, d.complete ≠ tickFuture → ∃ w ∈ d.writes, w.complete ≤ d.complete

/-- A write that completed at the tick or before is still there. -/
def KnownBy (g : ByteHistory) (cl : List WriteCluster) (tick : ℕ) : Prop :=
  ∃ w, Tracked cl w ∧ Listed g.completed w ∧ w.complete ≤ tick

structure Recorded (t : ByteTracker) (g : ByteHistory) (next now : ℕ) : Prop where
  now_le : now ≤ tickFuture
  fresh : ∀ p ∈ g.inFlight ++ g.completed, p.1 < next
  writes : WritesRecorded g t.getIncompleteWriteCluster.1 t.getIncompleteWriteCluster.2
  past : g.completed ≠ [] → KnownBy g t.writeClusters now
  reads : ReadsOk t.outstandingReads t.readObservations (fun _ => none) next now
  reading : ∀ p ∈ g.reading, ∃ r ∈ t.outstandingReads, r.serial = p.1 ∧
    (p.2 = true → KnownBy g t.writeClusters r.start)
  outstanding : ∀ r ∈ t.outstandingReads, ∃ p ∈ g.reading, p.1 = r.serial
  observed : ∀ o ∈ t.readObservations, o.complete = tickInitial ∨ o.data ∈ g.valuesRead

variable {g g' : ByteHistory} {c c' : WriteCluster} {cl rest rest' : List WriteCluster}
  {t t' : ByteTracker} {w r : Transaction} {next next' now now' serial tick : ℕ} {v : UInt8}

namespace WritesRecorded

section

variable (h : WritesRecorded g c rest)

include h

/-- If nothing is in flight, all writes have completed. -/
theorem completed_of_count (hzero : c.numIncomplete = 0) :
    g.inFlight = [] ∧ ∀ w ∈ c.writes, Listed g.completed w := by
  have hnone : ∀ w ∈ c.writes, ¬ HasSerial g.inFlight w.serial := by
    have hcount := h.count.symm.trans hzero
    intro w hw
    simpa using countP_eq_zero.mp hcount w hw
  constructor
  · rw [eq_nil_iff_forall_not_mem]
    intro p hp
    obtain ⟨w, hw, hserial⟩ := h.inHead p hp
    exact hnone w hw ⟨p, hp, hserial.symm⟩
  · intro w hw
    apply (h.recorded w hw).resolve_left
    intro hlisted
    exact hnone w hw ⟨_, hlisted, rfl⟩

/-- A complete cluster has a write that has completed. -/
theorem exists_of_closed {d : WriteCluster} (hd : d ∈ c :: rest)
    (hclosed : d.complete ≠ tickFuture) :
    ∃ w ∈ d.writes, Listed g.completed w ∧ w.complete ≤ d.complete := by
  rcases mem_cons.mp hd with rfl | hd
  · obtain ⟨hzero, w, hw, hle⟩ := h.closed hclosed
    exact ⟨w, hw, (h.completed_of_count hzero).2 w hw, hle⟩
  · obtain ⟨w, hw, hle⟩ := h.olderClosed d hd hclosed
    exact ⟨w, hw, h.older d hd w hw, hle⟩

/-- The reads do not matter. -/
theorem congr (hinFlight : g'.inFlight = g.inFlight)
    (hcompleted : g'.completed = g.completed) : WritesRecorded g' c rest where
  serials := h.serials
  recorded := by
    rw [hinFlight, hcompleted]
    exact h.recorded
  count := by
    rw [hinFlight]
    exact h.count
  inHead := by
    rw [hinFlight]
    exact h.inHead
  max := by
    rw [hcompleted]
    exact h.max
  closed := h.closed
  older := by
    rw [hcompleted]
    exact h.older
  olderClosed := h.olderClosed

theorem sublist (hsub : ∀ d ∈ rest', d ∈ rest) :
    WritesRecorded g c rest' :=
  { h with
    older := fun d hd => h.older d (hsub d hd)
    olderClosed := fun d hd => h.olderClosed d (hsub d hd) }

end

/-- A new cluster, before others that have completed writes only. -/
theorem fresh (hidle : g.inFlight = []) (hall : ∀ d ∈ rest, ∀ w ∈ d.writes, Listed g.completed w)
    (hclosed : ∀ d ∈ rest, d.complete ≠ tickFuture → ∃ w ∈ d.writes, w.complete ≤ d.complete) :
    WritesRecorded g {} rest where
  serials := nodup_nil
  recorded w hw := absurd hw not_mem_nil
  count := rfl
  inHead := by
    intro p hp
    rw [hidle] at hp
    exact absurd hp not_mem_nil
  max w hw := absurd hw not_mem_nil
  closed h := absurd rfl h
  older := hall
  olderClosed := hclosed

/-- The cluster for new writes, after the latest one has changed. -/
theorem getIncomplete (h : WritesRecorded g c rest) (hcl : t.writeClusters = c :: rest) :
    WritesRecorded g t.getIncompleteWriteCluster.1 t.getIncompleteWriteCluster.2 := by
  rw [ByteTracker.getIncompleteWriteCluster, hcl]
  dsimp only
  split_ifs with hcomplete
  · have hclosed : c.complete ≠ tickFuture := of_decide_eq_true hcomplete
    obtain ⟨hidle, hall⟩ := h.completed_of_count (h.closed hclosed).1
    apply fresh hidle
    · intro d hd
      rcases mem_cons.mp hd with rfl | hd
      · exact hall
      · exact h.older d hd
    · intro d hd hclosed'
      obtain ⟨w, hw, -, hle⟩ := h.exists_of_closed hd hclosed'
      exact ⟨w, hw, hle⟩
  · exact h

/-- Only an incomplete cluster takes a write. -/
theorem startWrite_eq_ok (h : c.startWrite serial tick v = .ok c') :
    c'.complete = tickFuture ∧ c'.completeMax = c.completeMax ∧
      c'.numIncomplete = c.numIncomplete + 1 ∧
      c'.writes = insertBySerial ⟨serial, tick, tickFuture, v⟩ c.writes := by
  rw [WriteCluster.startWrite] at h
  split at h
  · cases h
  rename_i hincomplete
  have hopen : c.complete = tickFuture := by simpa [WriteCluster.isComplete] using hincomplete
  dsimp only at h
  generalize (if c.start = tickFuture then tick else c.start) = opened at h
  split at h
  · cases h
    exact ⟨hopen, rfl, rfl, rfl⟩
  · cases h

section

variable (h : WritesRecorded g c rest)

include h

theorem serial_lt (hfresh : ∀ p ∈ g.inFlight ++ g.completed, p.1 < next) (hw : w ∈ c.writes) :
    w.serial < next := by
  have hlisted := h.recorded w hw
  exact hfresh _ (mem_append.mpr hlisted)

theorem startWrite (hfresh : ∀ p ∈ g.inFlight ++ g.completed, p.1 < next)
    (hstep : c.startWrite next tick v = .ok c') :
    WritesRecorded { g with inFlight := (next, v) :: g.inFlight } c' rest ∧
      ∀ w ∈ c.writes, w ∈ c'.writes := by
  obtain ⟨hopen, hmax, hnum, hinsert⟩ := startWrite_eq_ok hstep
  obtain ⟨new, hserial, hdata, hwrites⟩ : ∃ new : Transaction, new.serial = next ∧ new.data = v ∧
      c'.writes = c.writes ++ [new] :=
    ⟨_, rfl, rfl, hinsert.trans (insertBySerial_eq_append fun u hu => h.serial_lt hfresh hu)⟩
  have hcases : ∀ u ∈ c'.writes, u ∈ c.writes ∨ u = new := by
    intro u hu
    rw [hwrites] at hu
    exact (mem_append.mp hu).imp_right mem_singleton.mp
  have hkept : ∀ u ∈ c.writes, u ∈ c'.writes := by
    intro u hu
    rw [hwrites]
    exact mem_append_left _ hu
  refine ⟨?_, hkept⟩
  constructor
  · rw [hwrites, map_append, nodup_append]
    refine ⟨h.serials, by simp, ?_⟩
    intro n hn m hm
    obtain ⟨u, hu, rfl⟩ := mem_map.mp hn
    obtain rfl : m = next := by simpa [hserial] using hm
    exact (h.serial_lt hfresh hu).ne
  · intro u hu
    rcases hcases u hu with hu | rfl
    · exact (h.recorded u hu).imp_left fun hl => mem_cons_of_mem _ hl
    · refine .inl ?_
      rw [Listed, hserial, hdata]
      exact mem_cons_self
  · rw [hnum, hwrites, countP_append, h.count]
    congr 1
    · apply countP_congr
      intro u hu
      have hne := (h.serial_lt hfresh hu).ne'
      simp [hasSerial_cons, hne]
    · simp [hasSerial_cons, hserial]
  · intro p hp
    rcases mem_cons.mp hp with rfl | hp
    · refine ⟨new, ?_, hserial⟩
      rw [hwrites]
      exact mem_append_right _ (mem_singleton.mpr rfl)
    · obtain ⟨u, hu, hp⟩ := h.inHead p hp
      exact ⟨u, hkept u hu, hp⟩
  · intro u hu hlisted
    rcases hcases u hu with hu | rfl
    · rw [hmax]
      exact h.max u hu hlisted
    · have hlt := hfresh _ (mem_append_right _ hlisted)
      exact absurd hserial hlt.ne
  · exact fun hclosed => absurd hopen hclosed
  · exact h.older
  · exact h.olderClosed

/-- A write that has not completed is in flight, and it is counted. -/
theorem decrement_count {l₁ l₂ : List Transaction}
    (hsplit : c.writes = l₁ ++ w :: l₂) (hother : ∀ u ∈ l₁ ++ l₂, u.serial ≠ w.serial)
    (hw : Listed g.inFlight w) :
    decrement c.numIncomplete = (l₁ ++ l₂).countP fun u =>
      HasSerial (g.inFlight.filter fun p => p.1 ≠ w.serial) u.serial := by
  have hsame : ((l₁ ++ l₂).countP fun u =>
      HasSerial (g.inFlight.filter fun p => p.1 ≠ w.serial) u.serial) =
      (l₁ ++ l₂).countP fun u => HasSerial g.inFlight u.serial := by
    apply countP_congr
    intro u hu
    rw [decide_eq_true_iff, decide_eq_true_iff, hasSerial_filter]
    exact and_iff_left (hother u hu)
  have hcounted : HasSerial g.inFlight w.serial := ⟨_, hw, rfl⟩
  have hcount : c.numIncomplete =
      ((l₁ ++ l₂).countP fun u => HasSerial g.inFlight u.serial) + 1 := by
    rw [h.count, hsplit, countP_append, countP_append,
      countP_cons_of_pos (by simpa using hcounted)]
    omega
  rw [hsame, decrement, hcount, if_neg (Nat.succ_ne_zero _), Nat.add_sub_cancel]

/-- A complete cluster has nothing in flight. -/
theorem not_inFlight_of_closed (hclosed : c.complete ≠ tickFuture) :
    ¬ Listed g.inFlight w := by
  rw [(h.completed_of_count (h.closed hclosed).1).1]
  exact not_mem_nil

/-- A serial that is not found is not in flight. -/
theorem filter_of_not_found (hfind : findSerial serial c.writes = none) :
    (g.inFlight.filter fun p => p.1 ≠ serial) = g.inFlight ∧
      (g.inFlight.filter fun p => p.1 = serial) = [] := by
  have hne : ∀ p ∈ g.inFlight, p.1 ≠ serial := by
    rintro p hp rfl
    obtain ⟨w, hw, hserial⟩ := h.inHead p hp
    have := find?_eq_none.mp hfind w hw
    simp [hserial] at this
  constructor
  · exact filter_eq_self.mpr fun p hp => decide_eq_true (hne p hp)
  · exact filter_eq_nil_iff.mpr fun p hp => by simpa using hne p hp

/-- A serial that is found belongs to a write in flight, apart from the others. -/
theorem exists_of_found (honce : ∀ p ∈ g.completed, p.1 ≠ serial)
    (hfind : findSerial serial c.writes = some w) :
    w.serial = serial ∧ Listed g.inFlight w ∧
      ∃ l₁ l₂, c.writes = l₁ ++ w :: l₂ ∧ ∀ u ∈ l₁ ++ l₂, u.serial ≠ w.serial := by
  have hw : w ∈ c.writes := mem_of_find?_eq_some hfind
  have hserial : w.serial = serial := by simpa using find?_some hfind
  refine ⟨hserial, ?_, exists_split_of_mem h.serials hw⟩
  apply (h.recorded w hw).resolve_right
  intro hlisted
  exact honce _ hlisted hserial

/-- Which of the other writes are in flight does not change. -/
theorem recorded_other {u : Transaction} (hu : u ∈ c.writes)
    (hne : u.serial ≠ serial) :
    Listed (g.inFlight.filter fun p => p.1 ≠ serial) u ∨ Listed g.completed u :=
  (h.recorded u hu).imp_left fun hl => mem_filter.mpr ⟨hl, decide_eq_true hne⟩

theorem inHead_other {p : ℕ × UInt8}
    (hp : p ∈ g.inFlight.filter fun p => p.1 ≠ serial) :
    ∃ u ∈ c.writes, u.serial = p.1 ∧ u.serial ≠ serial := by
  obtain ⟨hp, hne⟩ := mem_filter.mp hp
  obtain ⟨u, hu, hserial⟩ := h.inHead p hp
  exact ⟨u, hu, hserial, hserial ▸ of_decide_eq_true hne⟩

theorem abortWrite (honce : ∀ p ∈ g.completed, p.1 ≠ serial) :
    WritesRecorded { g with inFlight := g.inFlight.filter fun p => p.1 ≠ serial }
        (c.abortWrite serial) rest ∧
      ∀ w ∈ c.writes, Listed g.completed w → w ∈ (c.abortWrite serial).writes := by
  rw [WriteCluster.abortWrite]
  cases hfind : findSerial serial c.writes with
  | none =>
    rw [(h.filter_of_not_found hfind).1]
    exact ⟨h, fun w hw _ => hw⟩
  | some w =>
    obtain ⟨rfl, hw, l₁, l₂, hsplit, hother⟩ := h.exists_of_found honce hfind
    have herase : eraseSerial w.serial c.writes = l₁ ++ l₂ := hsplit ▸ eraseSerial_split hother
    have hsub : ∀ u ∈ l₁ ++ l₂, u ∈ c.writes := by
      intro u hu
      rw [hsplit]
      exact (List.Sublist.append_left (sublist_cons_self w l₂) l₁).subset hu
    have hkeep : ∀ u ∈ c.writes, u.serial ≠ w.serial → u ∈ l₁ ++ l₂ := by
      intro u hu hne
      rw [← herase]
      exact mem_filter.mpr ⟨hu, decide_eq_true hne⟩
    have hcount := h.decrement_count hsplit hother hw
    dsimp only
    rw [herase]
    refine ⟨?_, fun u hu hlisted => hkeep u hu (honce _ hlisted)⟩
    constructor
    · refine h.serials.sublist ?_
      rw [hsplit]
      exact (List.Sublist.append_left (sublist_cons_self w l₂) l₁).map _
    · exact fun u hu => h.recorded_other (hsub u hu) (hother u hu)
    · exact hcount
    · intro p hp
      obtain ⟨u, hu, hserial, hne⟩ := h.inHead_other hp
      exact ⟨u, hkeep u hu hne, hserial⟩
    · exact fun u hu => h.max u (hsub u hu)
    · intro hclosed
      by_cases hlast : decrement c.numIncomplete = 0 ∧ l₁ ++ l₂ ≠ []
      · -- the writes that are left have completed
        rw [if_pos hlast]
        obtain ⟨u, hu⟩ := exists_mem_of_ne_nil _ hlast.2
        refine ⟨hlast.1, u, hu, h.max u (hsub u hu) ?_⟩
        apply (h.recorded_other (hsub u hu) (hother u hu)).resolve_left
        intro hlisted
        have hzero := countP_eq_zero.mp (hcount.symm.trans hlast.1) u hu
        exact hzero (decide_eq_true ⟨_, hlisted, rfl⟩)
      · rw [if_neg hlast] at hclosed
        exact absurd hw (h.not_inFlight_of_closed hclosed)
    · exact h.older
    · exact h.olderClosed

theorem completeWrite (honce : ∀ p ∈ g.completed, p.1 ≠ serial)
    (hstep : c.completeWrite serial tick = .ok c') :
    WritesRecorded
        { g with
          inFlight := g.inFlight.filter fun p => p.1 ≠ serial
          completed := (g.inFlight.filter fun p => p.1 = serial) ++ g.completed } c' rest ∧
      (∀ w ∈ c.writes, Listed g.completed w → w ∈ c'.writes) ∧
      ((g.inFlight.filter fun p => p.1 = serial) = [] ∨ ∃ w ∈ c'.writes,
        Listed (g.inFlight.filter fun p => p.1 = serial) w ∧ w.complete = tick) := by
  rw [WriteCluster.completeWrite] at hstep
  cases hfind : findSerial serial c.writes with
  | none =>
    rw [hfind] at hstep
    cases hstep
    obtain ⟨hself, hnil⟩ := h.filter_of_not_found hfind
    rw [hself, hnil]
    exact ⟨h, fun w hw _ => hw, .inl rfl⟩
  | some w =>
    rw [hfind] at hstep
    obtain ⟨rfl, hw, l₁, l₂, hsplit, hother⟩ := h.exists_of_found honce hfind
    have hset : setComplete w.serial tick c.writes = l₁ ++ { w with complete := tick } :: l₂ :=
      hsplit ▸ setComplete_split tick hother
    have hcases : ∀ u ∈ l₁ ++ { w with complete := tick } :: l₂,
        u ∈ c.writes ∧ u.serial ≠ w.serial ∨ u = { w with complete := tick } := by
      intro u hu
      have hmem : u ∈ { w with complete := tick } :: (l₁ ++ l₂) :=
        (perm_middle).subset hu
      rcases mem_cons.mp hmem with rfl | hu
      · exact .inr rfl
      · refine .inl ⟨?_, hother u hu⟩
        rw [hsplit]
        exact (List.Sublist.append_left (sublist_cons_self w l₂) l₁).subset hu
    have hkeep : ∀ u ∈ c.writes, u.serial ≠ w.serial →
        u ∈ l₁ ++ { w with complete := tick } :: l₂ := by
      intro u hu hne
      rw [← hset]
      exact mem_map.mpr ⟨u, hu, if_neg hne⟩
    have hself : Listed (g.inFlight.filter fun p => p.1 = w.serial) { w with complete := tick } :=
      mem_filter.mpr ⟨hw, decide_eq_true rfl⟩
    have hcount := h.decrement_count hsplit hother hw
    dsimp only at hstep
    split at hstep
    · cases hstep
      rw [hset]
      have hmax : tick ≤ (if c.completeMax < tick then tick else c.completeMax) ∧
          c.completeMax ≤ (if c.completeMax < tick then tick else c.completeMax) := by
        split <;> omega
      refine ⟨?_, fun u hu hlisted => hkeep u hu (honce _ hlisted),
        .inr ⟨_, by simp, hself, rfl⟩⟩
      constructor
      · have hserials := h.serials
        rw [hsplit] at hserials
        simpa using hserials
      · intro u hu
        rcases hcases u hu with ⟨hu, hne⟩ | rfl
        · exact (h.recorded_other hu hne).imp_right fun hl => mem_append_right _ hl
        · exact .inr (mem_append_left _ hself)
      · have hgone : ¬ HasSerial (g.inFlight.filter fun p => p.1 ≠ w.serial) w.serial :=
          fun hs => (hasSerial_filter.mp hs).2 rfl
        rw [hcount, countP_append, countP_append, countP_cons_of_neg]
        rw [decide_eq_true_iff]
        exact hgone
      · intro p hp
        obtain ⟨u, hu, hserial, hne⟩ := h.inHead_other hp
        exact ⟨u, hkeep u hu hne, hserial⟩
      · intro u hu hlisted
        rcases hcases u hu with ⟨hu, hne⟩ | rfl
        · refine (h.max u hu ?_).trans hmax.2
          apply (mem_append.mp hlisted).resolve_left
          intro hnew
          exact hne (of_decide_eq_true (mem_filter.mp hnew).2)
        · exact hmax.1
      · intro hclosed
        by_cases hlast : decrement c.numIncomplete = 0
        · rw [if_pos hlast]
          exact ⟨hlast, { w with complete := tick }, by simp, hmax.1⟩
        · rw [if_neg hlast] at hclosed
          exact absurd hw (h.not_inFlight_of_closed hclosed)
      · exact fun d hd u hu => mem_append_right _ (h.older d hd u hu)
      · exact h.olderClosed
    · cases hstep

end

end WritesRecorded

/-- Looking for the cluster for new writes does not change which writes there are. -/
theorem tracked_getIncomplete (t : ByteTracker) (w : Transaction) :
    Tracked (t.getIncompleteWriteCluster.1 :: t.getIncompleteWriteCluster.2) w ↔
      Tracked t.writeClusters w := by
  have hempty : ∀ l, Tracked (({} : WriteCluster) :: l) w ↔ Tracked l w := by
    intro l
    rw [tracked_cons]
    exact or_iff_right not_mem_nil
  rw [ByteTracker.getIncompleteWriteCluster]
  cases t.writeClusters with
  | nil => exact hempty []
  | cons c cl =>
    dsimp only
    split
    · exact hempty (c :: cl)
    · exact Iff.rfl

theorem mem_getIncomplete {d : WriteCluster} (hd : d ∈ t.writeClusters) :
    d ∈ t.getIncompleteWriteCluster.1 :: t.getIncompleteWriteCluster.2 := by
  rw [ByteTracker.getIncompleteWriteCluster]
  split
  · rename_i hcl
    rw [hcl] at hd
    exact absurd hd not_mem_nil
  · rename_i hcl
    rw [hcl] at hd
    split
    · exact mem_cons_of_mem _ hd
    · exact hd

/-- The clusters that are kept are the latest ones. -/
theorem getIncomplete_kept {newer older : List WriteCluster} {it : WriteCluster}
    (hcl : t.writeClusters = newer ++ it :: older) (hcl' : t'.writeClusters = newer ++ [it]) :
    t'.getIncompleteWriteCluster.1 = t.getIncompleteWriteCluster.1 ∧
      ∀ d ∈ t'.getIncompleteWriteCluster.2, d ∈ t.getIncompleteWriteCluster.2 := by
  have hsub : ∀ (l : List WriteCluster), ∀ d ∈ l ++ [it], d ∈ l ++ it :: older :=
    fun l d hd => (List.Sublist.append_left (by simp) l).subset hd
  rw [ByteTracker.getIncompleteWriteCluster, ByteTracker.getIncompleteWriteCluster, hcl, hcl']
  cases newer with
  | nil =>
    dsimp only [nil_append]
    split
    · exact ⟨rfl, hsub []⟩
    · exact ⟨rfl, fun d hd => absurd hd not_mem_nil⟩
  | cons d newer =>
    dsimp only [cons_append]
    split
    · exact ⟨rfl, hsub (d :: newer)⟩
    · exact ⟨rfl, hsub newer⟩

theorem KnownBy.mono (h : KnownBy g cl tick) {tick' : ℕ} (hle : tick ≤ tick') :
    KnownBy g cl tick' := by
  obtain ⟨w, hw, hlisted, hcomplete⟩ := h
  exact ⟨w, hw, hlisted, hcomplete.trans hle⟩

/-- What is dropped is made up for by the last cluster that is kept. -/
theorem KnownBy.kept {newer older : List WriteCluster} {it : WriteCluster} {before : ℕ}
    (h : KnownBy g (newer ++ it :: older) tick) (hit : it.complete < before ∨ older = [])
    (hclosed : it.complete < before →
      ∃ w ∈ it.writes, Listed g.completed w ∧ w.complete ≤ it.complete)
    (hbefore : before ≤ tick) : KnownBy g (newer ++ [it]) tick := by
  rcases hit with hlt | rfl
  · obtain ⟨w, hw, hlisted, hle⟩ := hclosed hlt
    exact ⟨w, ⟨it, by simp, hw⟩, hlisted, by omega⟩
  · exact h

namespace Recorded

section

variable (h : Recorded t g next now)

include h

theorem mono (hnext : next ≤ next') (hnow : now ≤ now')
    (hfuture : now' ≤ tickFuture) : Recorded t g next' now' where
  now_le := hfuture
  fresh p hp := (h.fresh p hp).trans_le hnext
  writes := h.writes
  past hp := (h.past hp).mono hnow
  reads := h.reads.mono hnext hnow
  reading := h.reading
  outstanding := h.outstanding
  observed := h.observed

/-! ### Pruning -/

theorem pruneReads :
    ∃ obs', eraseOlder Transaction.complete (t.pruneTick now) t.readObservations = .ok obs' ∧
      Recorded { t with readObservations := obs' } g next now := by
  obtain ⟨hnow, hout⟩ := h.reads.pruneTick_le
  obtain ⟨obs', hf, hsub, hreads⟩ := h.reads.prune hnow hout
  exact ⟨obs', hf,
    { h with
      reads := hreads
      observed := fun o ho => h.observed o (hsub o ho) }⟩

theorem pruneWrites (hne : t.writeClusters ≠ []) :
    ∃ cl', eraseOlder WriteCluster.complete (t.pruneTick now) t.writeClusters = .ok cl' ∧
      Recorded { t with writeClusters := cl' } g next now := by
  obtain ⟨hnow, hout⟩ := h.reads.pruneTick_le
  obtain ⟨newer, it, older, hf, hcl, hit⟩ :=
    eraseOlder_spec WriteCluster.complete (t.pruneTick now) hne
  have hmem : it ∈ t.writeClusters := by
    rw [hcl]
    simp
  have hkept : ∀ tick, t.pruneTick now ≤ tick → KnownBy g t.writeClusters tick →
      KnownBy g (newer ++ [it]) tick := by
    intro tick hbefore hknown
    rw [hcl] at hknown
    refine hknown.kept hit (fun hlt => ?_) hbefore
    have hfuture := h.now_le
    exact h.writes.exists_of_closed (mem_getIncomplete hmem) (by omega)
  refine ⟨newer ++ [it], hf,
    { h with
      writes := ?_
      past := fun hp => hkept now hnow (h.past hp)
      reading := ?_ }⟩
  · have hcl' : ({ t with writeClusters := newer ++ [it] } : ByteTracker).writeClusters =
        newer ++ [it] := rfl
    obtain ⟨hhead, hrest⟩ := getIncomplete_kept hcl hcl'
    rw [hhead]
    exact h.writes.sublist hrest
  · intro p hp
    obtain ⟨r, hr, hserial, hknown⟩ := h.reading p hp
    exact ⟨r, hr, hserial, fun hflag => hkept r.start (hout r hr) (hknown hflag)⟩

theorem prune :
    ∃ t', t.pruneTransactions now = .ok t' ∧ Recorded t' g next now := by
  obtain ⟨obs', hobs, h'⟩ := h.pruneReads
  rw [ByteTracker.pruneTransactions, hobs]
  by_cases hnil : t.writeClusters = []
  · exact ⟨_, if_pos hnil, h'⟩
  · obtain ⟨cl', hcl, h'⟩ := h'.pruneWrites hnil
    refine ⟨{ t with readObservations := obs', writeClusters := cl' }, (if_neg hnil).trans ?_, h'⟩
    have hcl : eraseOlder WriteCluster.complete (t.pruneTick now) t.writeClusters = .ok cl' := hcl
    rw [hcl]
    rfl

/-! ### Writes -/

/-- The cluster for new writes is replaced by one with the same completed writes. -/
theorem revise (hnext : next ≤ next')
    (hfresh : ∀ p ∈ g'.inFlight ++ g'.completed, p.1 < next')
    (hwrites : WritesRecorded g' c' t.getIncompleteWriteCluster.2)
    (hreading : g'.reading = g.reading) (hvalues : g'.valuesRead = g.valuesRead)
    (hkeep : ∀ w ∈ t.getIncompleteWriteCluster.1.writes, Listed g.completed w → w ∈ c'.writes)
    (hcompleted : ∀ p ∈ g.completed, p ∈ g'.completed)
    (hpast : g.completed = [] → g'.completed ≠ [] →
      KnownBy g' (c' :: t.getIncompleteWriteCluster.2) now) :
    Recorded { t with writeClusters := c' :: t.getIncompleteWriteCluster.2 } g' next' now := by
  have hknown : ∀ tick, KnownBy g t.writeClusters tick →
      KnownBy g' (c' :: t.getIncompleteWriteCluster.2) tick := by
    rintro tick ⟨w, hw, hlisted, hle⟩
    refine ⟨w, ?_, hcompleted _ hlisted, hle⟩
    rcases tracked_cons.mp ((tracked_getIncomplete t w).mpr hw) with hw | hw
    · exact .of_head (hkeep w hw hlisted)
    · exact .of_tail hw
  constructor
  · exact h.now_le
  · exact hfresh
  · exact hwrites.getIncomplete rfl
  · intro hne
    by_cases hnone : g.completed = []
    · exact hpast hnone hne
    · exact hknown now (h.past hnone)
  · exact h.reads.mono hnext le_rfl
  · intro p hp
    rw [hreading] at hp
    obtain ⟨r, hr, hserial, hbefore⟩ := h.reading p hp
    exact ⟨r, hr, hserial, fun hflag => hknown _ (hbefore hflag)⟩
  · rw [hreading]
    exact h.outstanding
  · rw [hvalues]
    exact h.observed

theorem startWrite (hstep : t.startWrite next now v = .ok t') :
    Recorded t' (g.after next (.startWrite now v)) (next + 1) now := by
  obtain ⟨c', hc', rfl⟩ := Except.bind_pure_eq_ok hstep
  obtain ⟨hwrites, hkeep⟩ := h.writes.startWrite h.fresh hc'
  apply h.revise next.le_succ _ hwrites rfl rfl
  · exact fun w hw _ => hkeep w hw
  · exact fun p hp => hp
  · exact absurd
  · intro p hp
    rcases mem_cons.mp hp with rfl | hp
    · exact next.lt_succ_self
    · exact (h.fresh p hp).trans next.lt_succ_self

theorem abortWrite (honce : ∀ p ∈ g.completed, p.1 ≠ serial) :
    Recorded (t.abortWrite serial) (g.after next (.abortWrite serial)) next now := by
  obtain ⟨hwrites, hkeep⟩ := h.writes.abortWrite honce
  apply h.revise le_rfl _ hwrites rfl rfl hkeep
  · exact fun p hp => hp
  · exact absurd
  · intro p hp
    apply h.fresh p
    exact (List.Sublist.append_right filter_sublist _).subset hp

theorem completeWrite (honce : ∀ p ∈ g.completed, p.1 ≠ serial)
    (hstep : t.completeWrite serial now = .ok t') :
    Recorded t' (g.after next (.completeWrite serial now)) next now := by
  obtain ⟨c', hc', hstep⟩ := Except.bind_eq_ok hstep
  obtain ⟨hwrites, hkeep, hnew⟩ := h.writes.completeWrite honce hc'
  have hrevised : Recorded { t with writeClusters := c' :: t.getIncompleteWriteCluster.2 }
      (g.after next (.completeWrite serial now)) next now := by
    apply h.revise le_rfl _ hwrites rfl rfl hkeep
    · exact fun p hp => mem_append_right _ hp
    · intro hnone hne
      rcases hnew with hnil | ⟨w, hw, hlisted, hcomplete⟩
      · rw [hnil, hnone] at hne
        exact absurd rfl hne
      · exact ⟨w, .of_head hw, mem_append_left _ hlisted, hcomplete.le⟩
    · intro p hp
      -- the writes that complete were in flight
      apply h.fresh p
      rcases mem_append.mp hp with hp | hp
      · exact mem_append_left _ (mem_filter.mp hp).1
      · exact (List.Sublist.append_right filter_sublist _).subset hp
  obtain ⟨t'', ht'', h'⟩ := hrevised.prune
  obtain rfl := Except.ok.inj (ht''.symm.trans hstep)
  exact h'

end

/-! ### Reads -/

/-- The values that were seen are not needed here. -/
theorem forget {out obs : List Transaction} {seen : ℕ → Option (List UInt8)}
    (h : ReadsOk out obs seen next now) : ReadsOk out obs (fun _ => none) next now :=
  { h with
    tracked := by
      intro serial vs hvs
      cases hvs }

section

variable (h : Recorded t g next now)

include h

theorem startRead :
    Recorded (t.startRead next now) (g.after next (.startRead now)) (next + 1) now := by
  have hout : (t.startRead next now).outstandingReads =
      t.outstandingReads ++ [{ serial := next, start := now, complete := tickFuture }] :=
    insertBySerial_eq_append h.reads.fresh
  constructor
  · exact h.now_le
  · exact fun p hp => (h.fresh p hp).trans next.lt_succ_self
  · exact h.writes.congr rfl rfl
  · exact h.past
  · rw [hout]
    exact forget (h.reads.startRead [])
  · intro p hp
    rw [hout]
    rcases mem_cons.mp hp with rfl | hp
    · refine ⟨_, mem_append_right _ (mem_singleton.mpr rfl), rfl, ?_⟩
      intro hflag
      apply h.past
      intro hnone
      rw [hnone] at hflag
      cases hflag
    · obtain ⟨r, hr, hread⟩ := h.reading p hp
      exact ⟨r, mem_append_left _ hr, hread⟩
  · intro r hr
    rw [hout] at hr
    rcases mem_append.mp hr with hr | hr
    · obtain ⟨p, hp, hserial⟩ := h.outstanding r hr
      exact ⟨p, mem_cons_of_mem _ hp, hserial⟩
    · obtain rfl := mem_singleton.mp hr
      exact ⟨_, mem_cons_self, rfl⟩
  · exact h.observed

/-- The tracker of `completeRead` before it is pruned. -/
theorem observe (hr : r ∈ t.outstandingReads) (v : UInt8) :
    Recorded
      { t with
        outstandingReads := eraseSerial r.serial t.outstandingReads
        readObservations :=
          { serial := r.serial, start := r.start, complete := now, data := v } ::
            t.readObservations }
      (g.after next (.completeRead r.serial now v)) next now := by
  constructor
  · exact h.now_le
  · exact h.fresh
  · exact h.writes.congr rfl rfl
  · exact h.past
  · exact forget (h.reads.observe hr v)
  · intro p hp
    obtain ⟨hp, hne⟩ := mem_filter.mp hp
    obtain ⟨r', hr', hserial, hknown⟩ := h.reading p hp
    refine ⟨r', ReadsOk.mem_eraseSerial.mpr ⟨hr', ?_⟩, hserial, hknown⟩
    rw [hserial]
    exact of_decide_eq_true hne
  · intro r' hr'
    obtain ⟨hr', hne⟩ := ReadsOk.mem_eraseSerial.mp hr'
    obtain ⟨p, hp, hserial⟩ := h.outstanding r' hr'
    exact ⟨p, mem_filter.mpr ⟨hp, decide_eq_true (hserial ▸ hne)⟩, hserial⟩
  · intro o ho
    rcases mem_cons.mp ho with rfl | ho
    · obtain ⟨p, hp, hserial⟩ := h.outstanding r hr
      refine .inr (mem_append_left _ ?_)
      exact mem_map.mpr ⟨p, mem_filter.mpr ⟨hp, decide_eq_true hserial⟩, rfl⟩
    · exact (h.observed o ho).imp_right fun hv => mem_append_right _ hv

/-- A read that the tracker does not know. -/
theorem completeRead_unknown (hfind : findSerial serial t.outstandingReads = none) :
    Recorded t (g.after next (.completeRead serial now v)) next now :=
  { h with
    writes := h.writes.congr rfl rfl
    reading := by
      intro p hp
      exact h.reading p (mem_filter.mp hp).1
    outstanding := by
      intro r hr
      obtain ⟨p, hp, hserial⟩ := h.outstanding r hr
      have hne := find?_eq_none.mp hfind r hr
      refine ⟨p, mem_filter.mpr ⟨hp, ?_⟩, hserial⟩
      rw [hserial]
      simpa using hne
    observed := by
      intro o ho
      exact (h.observed o ho).imp_right fun hv => mem_append_right _ hv }

theorem completeRead {result : Bool}
    (hstep : t.completeRead serial now v = .ok (result, t')) :
    Recorded t' (g.after next (.completeRead serial now v)) next now := by
  rw [ByteTracker.completeRead] at hstep
  cases hfind : findSerial serial t.outstandingReads with
  | none =>
    rw [hfind] at hstep
    obtain ⟨-, rfl⟩ := Prod.ext_iff.mp (Except.ok.inj hstep)
    exact h.completeRead_unknown hfind
  | some r =>
    rw [hfind] at hstep
    have hr : r ∈ t.outstandingReads := mem_of_find?_eq_some hfind
    obtain rfl : r.serial = serial := by simpa using find?_some hfind
    obtain ⟨t'', hprune, h'⟩ := (h.observe hr v).prune
    obtain ⟨_, -, hstep⟩ := Except.bind_eq_ok hstep
    obtain ⟨t₃, ht₃, hstep⟩ := Except.bind_eq_ok hstep
    obtain ⟨-, rfl⟩ := Prod.ext_iff.mp (Except.ok.inj hstep)
    obtain rfl := Except.ok.inj (hprune.symm.trans ht₃)
    exact h'

/-- **A value out of thin air is rejected.** -/
theorem rejects (hread : (serial, true) ∈ g.reading)
    (hwritten : ¬ g.Written v) (hvalues : v ∉ g.valuesRead) :
    ∃ t', t.completeRead serial now v = .ok (false, t') := by
  obtain ⟨r, hr, hserial, hknown⟩ := h.reading _ hread
  obtain rfl : r.serial = serial := hserial
  obtain ⟨o, ho, hlast, hstart⟩ := h.reads.exists_last (.inr ⟨r, hr, rfl⟩)
  have hdata : ∀ w, Tracked t.writeClusters w → w.data ≠ v := by
    rintro w hw rfl
    apply hwritten
    refine ⟨(w.serial, w.data), mem_append.mpr ?_, rfl⟩
    rcases tracked_cons.mp ((tracked_getIncomplete t w).mpr hw) with hw | ⟨d, hd, hw⟩
    · exact h.writes.recorded w hw
    · exact .inr (h.writes.older d hd w hw)
  have hobs : o.complete ≠ tickInitial → o.data ≠ v := by
    rintro hne rfl
    exact hvalues ((h.observed o ho).resolve_left hne)
  obtain ⟨w, hw, -, hle⟩ := hknown rfl
  -- the outstanding reads do not matter for what is expected
  have hexpected : ByteTracker.inExpectedData
      { t with outstandingReads := eraseSerial r.serial t.outstandingReads } r.start now v =
        .ok false :=
    inExpectedData_of_unknown hlast (h.reads.span o ho).1 hstart hobs hdata ⟨w, hw, hle⟩
  obtain ⟨t', hprune, -⟩ := (h.observe hr v).prune
  refine ⟨t', ?_⟩
  rw [ByteTracker.completeRead, h.reads.findSerial_eq_some hr]
  dsimp only
  rw [hexpected]
  exact congrArg (· >>= fun t₃ => .ok (false, t₃)) hprune

end

end Recorded

/-! ## Runs -/

namespace WatchedByte

variable {s s' : WatchedByte} {e : CheckerEvent}

/-- The tracker has what it needs of the history. -/
def Tracks (s : WatchedByte) : Prop :=
  Recorded s.byte.tracker s.history s.byte.nextSerial s.byte.now

theorem tracks_initial (value : UInt8) : (initial value).Tracks := by
  refine ⟨Nat.zero_le _, ?_, ?_, fun hne => absurd rfl hne, ?_, ?_, ?_, ?_⟩
  · exact fun p hp => absurd hp not_mem_nil
  · refine WritesRecorded.fresh rfl ?_ ?_
    · exact fun d hd => absurd hd not_mem_nil
    · exact fun d hd => absurd hd not_mem_nil
  · exact Recorded.forget (Sound.initial value).reads
  · exact fun p hp => absurd hp not_mem_nil
  · exact fun r hr => absurd hr not_mem_nil
  · intro o ho
    obtain rfl := mem_singleton.mp ho
    exact .inl rfl

theorem step_eq_ok (h : s.step e = .ok s') :
    ∃ result t', s.byte.check e = .ok (result, t') ∧ s' =
      { byte :=
          { tracker := t'
            nextSerial := s.byte.serialAfter e
            now := s.byte.tickOf e
            register := s.byte.register.after s.byte.nextSerial e
            alarm := s.byte.alarm || !result }
        history := s.history.after s.byte.nextSerial e } := by
  obtain ⟨byte, hbyte, rfl⟩ := Except.map_eq_ok h
  obtain ⟨p, hcheck, rfl⟩ := Except.map_eq_ok hbyte
  exact ⟨p.1, p.2, hcheck, rfl⟩

theorem Tracks.step (h : s.Tracks) (hrep : s.Reported e) (hstep : s.step e = .ok s') :
    s'.Tracks := by
  obtain ⟨hnow, hfuture, honce⟩ := hrep
  obtain ⟨result, t', hcheck, hs'⟩ := step_eq_ok hstep
  rw [hs']
  have h' := Recorded.mono h le_rfl hnow hfuture
  cases e with
  | startRead tick =>
    obtain ⟨-, rfl⟩ := Prod.ext_iff.mp (Except.ok.inj hcheck)
    exact h'.startRead
  | completeRead serial tick data => exact h'.completeRead hcheck
  | startWrite tick data =>
    obtain ⟨t'', ht, heq⟩ := Except.map_eq_ok hcheck
    obtain ⟨-, rfl⟩ := Prod.ext_iff.mp heq
    exact h'.startWrite ht
  | completeWrite serial tick =>
    obtain ⟨t'', ht, heq⟩ := Except.map_eq_ok hcheck
    obtain ⟨-, rfl⟩ := Prod.ext_iff.mp heq
    exact h'.completeWrite honce ht
  | abortWrite serial =>
    obtain ⟨-, rfl⟩ := Prod.ext_iff.mp (Except.ok.inj hcheck)
    exact h'.abortWrite honce
  | effect serial =>
    obtain ⟨-, rfl⟩ := Prod.ext_iff.mp (Except.ok.inj hcheck)
    exact h'
  | startOther =>
    obtain ⟨-, rfl⟩ := Prod.ext_iff.mp (Except.ok.inj hcheck)
    exact h'.mono (Nat.le_succ _) le_rfl hfuture

/-- **The checker detects values out of thin air.**  After every history reported in the order of
the ticks, a read that started when a write had completed is rejected if it returns a value that no
write wrote, other than aborted ones, and no read has returned. -/
theorem checker_detects_thin_air {value : UInt8} {es : List CheckerEvent}
    (h : Runs (Within step Reported) (initial value) es s) {serial tick : ℕ} {v : UInt8}
    (hnow : s.byte.now ≤ tick) (hfuture : tick ≤ tickFuture)
    (hread : (serial, true) ∈ s.history.reading) (hwritten : ¬ s.history.Written v)
    (hvalues : v ∉ s.history.valuesRead) :
    ∃ t, s.byte.tracker.completeRead serial tick v = .ok (false, t) := by
  have hs : s.Tracks := by
    apply h.invariant _ (tracks_initial value)
    rintro s e s' hs ⟨hrep, hstep⟩
    exact hs.step hrep hstep
  exact (Recorded.mono hs le_rfl hnow hfuture).rejects hread hwritten hvalues

/-- The write of 7 is aborted, that of 5 completes at the tick at which the read starts, and another
one overlaps the read. -/
theorem checker_detects_thin_air_aborted :
    ∃ s, Runs (Within step Reported) (initial 0)
        [.startWrite 1 7, .startWrite 2 5, .abortWrite 0, .completeWrite 1 4, .startRead 4,
          .startWrite 5 6] s ∧
      ∃ t, s.byte.tracker.completeRead 2 8 7 = .ok (false, t) := by
  refine exists_runs_imp_of_execWithin (P := fun s => s.byte.now ≤ 8 ∧
    (2, true) ∈ s.history.reading ∧ ¬ s.history.Written 7 ∧ 7 ∉ s.history.valuesRead)
    (by decide +kernel) ?_
  rintro s hrun ⟨hnow, hread, hwritten, hvalues⟩
  exact checker_detects_thin_air hrun hnow (by decide) hread hwritten hvalues

end WatchedByte

end MemChecker
