/-
# The memory checker raises no false alarm

The invariant that ties a `ByteTracker` to the register whose history it was told.
It has four parts.

* `WritesOk` — the clusters hold the writes in flight, in the latest cluster, and
               completed ones, which have taken effect, in the order of their ticks.
* `ReadsOk`  — the reads are ordered by serial and by start, and the oldest observation
               is the initial one or lies before every outstanding read.
* `accepts`  — every value that an outstanding read has seen is `Accepted`.
* `Current`  — where the value of the register comes from: the first write that took
               effect on the way from the latest cluster, or a time before all writes.

Each event keeps the invariant when the ticks are `Apart`
(`CheckedByte.NoAlarm.step`), hence every linearizable history of such events is
accepted (`checker_no_false_alarm`).
-/
import Gem5.MemCheckerScan
import Mathlib

open List

open Function

namespace MemChecker

variable {reg : Register} {cl cl' rest : List WriteCluster} {c c' : WriteCluster}
  {obs out : List Transaction} {o w r : Transaction} {next next' now now' serial : ℕ} {v : UInt8}

/-! ## Clusters -/

section

variable {P Q : Transaction → Prop}

theorem Reaches.exists_tracked (h : Reaches P Q cl) :
    ∃ w, Tracked cl w ∧ P w := by
  induction cl with
  | nil => exact h.elim
  | cons c cl ih =>
    rcases h with ⟨w, hw, hP⟩ | ⟨-, hreach⟩
    · exact ⟨w, Tracked.of_head hw, hP⟩
    · obtain ⟨w, hw, hP⟩ := ih hreach
      exact ⟨w, hw.of_tail, hP⟩

theorem Reaches.of_head (hcl : cl = c :: rest) (hw : w ∈ c.writes)
    (hP : P w) : Reaches P Q cl := by
  subst hcl
  exact .inl ⟨w, hw, hP⟩

/-- The latest cluster is replaced. -/
theorem Reaches.head (h : Reaches P Q (c :: rest))
    (hP : ∀ w ∈ c.writes, P w → ∃ w' ∈ c'.writes, P w')
    (hQ : (∀ w ∈ c.writes, Q w) → ∀ w' ∈ c'.writes, Q w') : Reaches P Q (c' :: rest) := by
  rcases h with ⟨w, hw, hPw⟩ | ⟨hall, hreach⟩
  · exact .inl (hP w hw hPw)
  · exact .inr ⟨hQ hall, hreach⟩

/-- What is found is in the clusters that are kept, or the search goes on past the oldest of
them. -/
theorem Reaches.kept_or {newer older : List WriteCluster}
    (h : Reaches P Q (newer ++ c :: older)) :
    Reaches P Q (newer ++ [c]) ∨ ((∀ w ∈ c.writes, Q w) ∧ Reaches P Q older) := by
  induction newer with
  | nil =>
    rcases h with hc | hpast
    · exact .inl (.inl hc)
    · exact .inr hpast
  | cons d newer ih =>
    rcases h with hd | ⟨hall, hreach⟩
    · exact .inl (.inl hd)
    · exact (ih hreach).imp_left fun hkept => .inr ⟨hall, hkept⟩

end

/-! ## The writes of the tracker -/

structure WritesOk (cl : List WriteCluster) (written : ℕ → Option UInt8) (taken : ℕ → Bool)
    (next now : ℕ) : Prop where
  cluster : ∀ c ∈ cl, c.Ok now
  closed : ∀ c ∈ cl.tail, c.complete ≠ tickFuture
  ordered : cl.Pairwise fun c d => ∀ w ∈ c.writes, ∀ u ∈ d.writes, u.complete ≤ w.start
  inFlight : ∀ serial d, written serial = some d →
    ∃ c ∈ cl.head?, ∃ w ∈ c.writes, w.serial = serial ∧ w.Open ∧ w.data = d
  fresh : ∀ w, Tracked cl w → w.serial < next
  completed : ∀ w, Tracked cl w → ¬ w.Open → taken w.serial = true
  taken_lt : ∀ serial, taken serial = true → serial < next

namespace WritesOk

variable {written written' : ℕ → Option UInt8} {taken : ℕ → Bool} {t : ByteTracker}

section

variable (h : WritesOk cl written taken next now)

include h

theorem mono (hnext : next ≤ next') (hnow : now ≤ now') :
    WritesOk cl written taken next' now' where
  cluster c hc := (h.cluster c hc).mono hnow
  closed := h.closed
  ordered := h.ordered
  inFlight := h.inFlight
  fresh w hw := (h.fresh w hw).trans_le hnext
  completed := h.completed
  taken_lt s hs := (h.taken_lt s hs).trans_le hnext

theorem start_le (hw : Tracked cl w) : w.start ≤ now := by
  obtain ⟨c, hc, hw⟩ := hw
  exact (h.cluster c hc).start_le w hw

/-- A write that has not taken effect is in flight. -/
theorem open_of_not_taken (hw : Tracked cl w)
    (ht : taken w.serial = false) : w.Open := by
  by_contra hopen
  exact Bool.false_ne_true (ht.symm.trans (h.completed w hw hopen))

end

/-- The older clusters completed. -/
theorem complete_le (h : WritesOk (c :: rest) written taken next now) (hw : Tracked rest w) :
    w.complete ≤ now := by
  obtain ⟨d, hd, hw⟩ := hw
  obtain ⟨hle, -, hall⟩ := (h.cluster d (mem_cons_of_mem _ hd)).of_complete (h.closed d hd)
  exact (hall w hw).2.trans hle

/-- The write of a serial in flight is in the latest cluster, which is incomplete. -/
theorem exists_of_written (h : WritesOk t.writeClusters written taken next now) {d : UInt8}
    (hs : written serial = some d) :
    ∃ c rest w, t.writeClusters = c :: rest ∧ t.getIncompleteWriteCluster = (c, rest) ∧
      w ∈ c.writes ∧ w.serial = serial ∧ w.Open ∧ w.data = d := by
  obtain ⟨c, hc, w, hw, hserial, hopen, hdata⟩ := h.inFlight serial d hs
  obtain ⟨rest, hcl⟩ : ∃ rest, t.writeClusters = c :: rest :=
    ⟨_, eq_cons_of_mem_head? hc⟩
  have hincomplete := (h.cluster c (by simp [hcl])).complete_eq hw hopen
  refine ⟨c, rest, w, hcl, ?_, hw, hserial, hopen, hdata⟩
  rw [ByteTracker.getIncompleteWriteCluster, hcl]
  simp [WriteCluster.isComplete, hincomplete]

/-- The cluster for a new write: the latest one, or a new one before clusters that are all
complete. -/
theorem getIncomplete (h : WritesOk t.writeClusters written taken next now) :
    ∃ c rest, t.getIncompleteWriteCluster = (c, rest) ∧ c.complete = tickFuture ∧
      WritesOk (c :: rest) written taken next now ∧
      (t.writeClusters = c :: rest ∨ (c = {} ∧ rest = t.writeClusters)) := by
  by_cases hhead : ∃ c rest, t.writeClusters = c :: rest ∧ c.complete = tickFuture
  · obtain ⟨c, rest, hcl, hc⟩ := hhead
    refine ⟨c, rest, ?_, hc, hcl ▸ h, .inl hcl⟩
    rw [ByteTracker.getIncompleteWriteCluster, hcl]
    simp [WriteCluster.isComplete, hc]
  · have hclosed : ∀ c ∈ t.writeClusters, c.complete ≠ tickFuture := by
      intro c hc hopen
      cases hcl : t.writeClusters with
      | nil => simp [hcl] at hc
      | cons d rest =>
        rw [hcl] at hc
        rcases mem_cons.mp hc with rfl | hc
        · exact hhead ⟨c, rest, hcl, hopen⟩
        · exact h.closed c (by simpa [hcl] using hc) hopen
    refine ⟨{}, t.writeClusters, ?_, rfl, ?_, .inr ⟨rfl, rfl⟩⟩
    · rw [ByteTracker.getIncompleteWriteCluster]
      split
      · rename_i hcl
        rw [hcl]
      · rename_i c rest hcl
        rw [if_pos (by simpa [WriteCluster.isComplete] using hclosed c (by simp [hcl])), hcl]
    · constructor
      · intro c hc
        rcases mem_cons.mp hc with rfl | hc
        · exact WriteCluster.ok_empty now
        · exact h.cluster c hc
      · exact hclosed
      · exact pairwise_cons.mpr ⟨fun _ _ _ hw => absurd hw not_mem_nil, h.ordered⟩
      · intro s d hs
        obtain ⟨c, hc, w, hw, -, hopen, -⟩ := h.inFlight s d hs
        have hmem := mem_of_mem_head? hc
        exact absurd ((h.cluster c hmem).complete_eq hw hopen) (hclosed c hmem)
      · exact fun w hw => h.fresh w ((tracked_cons.mp hw).resolve_left not_mem_nil)
      · exact fun w hw => h.completed w ((tracked_cons.mp hw).resolve_left not_mem_nil)
      · exact h.taken_lt

/-- The latest cluster gets other writes, none of which starts before the older clusters
complete. -/
theorem replaceHead (h : WritesOk (c :: rest) written taken next now) (hok : c'.Ok now)
    (hnext : next ≤ next')
    (hstart : ∀ w' ∈ c'.writes, (∃ w ∈ c.writes, w.start = w'.start) ∨ now ≤ w'.start)
    (hinFlight : ∀ serial d, written' serial = some d →
      ∃ w ∈ c'.writes, w.serial = serial ∧ w.Open ∧ w.data = d)
    (hfresh : ∀ w ∈ c'.writes, w.serial < next')
    (hcompleted : ∀ w ∈ c'.writes, ¬ w.Open → taken w.serial = true) :
    WritesOk (c' :: rest) written' taken next' now := by
  obtain ⟨hbefore, hordered⟩ := pairwise_cons.mp h.ordered
  constructor
  · intro d hd
    rcases mem_cons.mp hd with rfl | hd
    · exact hok
    · exact h.cluster d (mem_cons_of_mem _ hd)
  · exact h.closed
  · refine pairwise_cons.mpr ⟨fun d hd w' hw' u hu => ?_, hordered⟩
    rcases hstart w' hw' with ⟨w, hw, heq⟩ | hle
    · exact heq ▸ hbefore d hd w hw u hu
    · exact (h.complete_le ⟨d, hd, hu⟩).trans hle
  · exact fun s d hs => ⟨c', rfl, hinFlight s d hs⟩
  · intro w hw
    rcases tracked_cons.mp hw with hw | hw
    · exact hfresh w hw
    · exact (h.fresh w hw.of_tail).trans_le hnext
  · intro w hw
    rcases tracked_cons.mp hw with hw | hw
    · exact hcompleted w hw
    · exact h.completed w hw.of_tail
  · exact fun s hs => (h.taken_lt s hs).trans_le hnext

/-- The writes in flight without one of them. -/
theorem inFlight_update_none (h : WritesOk (c :: rest) written taken next now) {done : ℕ}
    (hkeep : ∀ u ∈ c.writes, u.serial ≠ done → u ∈ c'.writes) (serial : ℕ) (d : UInt8)
    (hs : update written done none serial = some d) :
    ∃ w ∈ c'.writes, w.serial = serial ∧ w.Open ∧ w.data = d := by
  have hne : serial ≠ done := by
    rintro rfl
    rw [update_self] at hs
    cases hs
  rw [update_of_ne hne] at hs
  obtain ⟨d', hd', u, hu, hfound⟩ := h.inFlight serial d hs
  cases hd'
  exact ⟨u, hkeep u hu (hfound.1 ▸ hne), hfound⟩

/-- Older clusters are dropped. -/
theorem prune {newer older : List WriteCluster}
    (h : WritesOk (newer ++ c :: older) written taken next now) :
    WritesOk (newer ++ [c]) written taken next now := by
  have hsub : (newer ++ [c]).Sublist (newer ++ c :: older) :=
    List.Sublist.append_left (by simp) newer
  have htracked : ∀ w, Tracked (newer ++ [c]) w → Tracked (newer ++ c :: older) w :=
    fun w ⟨d, hd, hw⟩ => ⟨d, hsub.subset hd, hw⟩
  constructor
  · exact fun d hd => h.cluster d (hsub.subset hd)
  · exact fun d hd => h.closed d (hsub.tail.subset hd)
  · exact h.ordered.sublist hsub
  · intro s d hs
    have := h.inFlight s d hs
    cases newer <;> simpa using this
  · exact fun w hw => h.fresh w (htracked w hw)
  · exact fun w hw => h.completed w (htracked w hw)
  · exact h.taken_lt

end WritesOk

/-! ## The reads of the tracker -/

structure ReadsOk (out obs : List Transaction) (seen : ℕ → Option (List UInt8)) (next now : ℕ) :
    Prop where
  ordered : out.Pairwise fun r r' => r.serial < r'.serial ∧ r.start ≤ r'.start
  fresh : ∀ r ∈ out, r.serial < next
  started : ∀ r ∈ out, r.start ≤ now
  inFlight : ∀ r ∈ out, r.Open
  tracked : ∀ serial vs, seen serial = some vs → ∃ r ∈ out, r.serial = serial
  observed : obs ≠ []
  span : ∀ o ∈ obs, o.start ≤ o.complete ∧ o.complete ≤ now
  oldest : ∀ o ∈ obs.getLast?, o.complete = tickInitial ∨
    (o.complete < now ∧ ∀ r ∈ out, o.complete < r.start)

namespace ReadsOk

variable {seen : ℕ → Option (List UInt8)} {start : ℕ}

section

variable (h : ReadsOk out obs seen next now)

include h

theorem mono (hnext : next ≤ next') (hnow : now ≤ now') :
    ReadsOk out obs seen next' now' where
  ordered := h.ordered
  fresh r hr := (h.fresh r hr).trans_le hnext
  started r hr := (h.started r hr).trans hnow
  inFlight := h.inFlight
  tracked := h.tracked
  observed := h.observed
  span o ho := ⟨(h.span o ho).1, (h.span o ho).2.trans hnow⟩
  oldest o ho := (h.oldest o ho).imp_right fun hlt => ⟨hlt.1.trans_le hnow, hlt.2⟩

theorem serials : (out.map Transaction.serial).Nodup := by
  rw [List.Nodup, pairwise_map]
  exact h.ordered.imp fun hlt => hlt.1.ne

theorem start_le (ho : o ∈ obs) : o.start ≤ now :=
  (h.span o ho).1.trans (h.span o ho).2

/-- The last observation of a read that starts now or is outstanding. -/
theorem exists_last (hstart : start = now ∨ ∃ r ∈ out, r.start = start) :
    ∃ o ∈ obs, (lastCompletedTransaction Transaction.complete start obs).map Prod.snd = .ok o ∧
      (o.complete = tickInitial ∨ o.complete < start) := by
  obtain ⟨newer, it, older, hf, rfl, -, hit⟩ :=
    lastCompletedTransaction_spec Transaction.complete start h.observed
  refine ⟨it, by simp, by rw [hf]; rfl, ?_⟩
  rcases hit with hlt | rfl
  · exact .inr hlt
  · refine (h.oldest it (by simp)).imp_right fun hlt => ?_
    rcases hstart with rfl | ⟨r, hr, rfl⟩
    · exact hlt.1
    · exact hlt.2 r hr

/-- A read starts. -/
theorem startRead (vs : List UInt8) :
    ReadsOk (out ++ [{ serial := next, start := now, complete := tickFuture }]) obs
      (update seen next (some vs)) (next + 1) now := by
  have hcases : ∀ r ∈ out ++ [{ serial := next, start := now, complete := tickFuture }],
      r ∈ out ∨ r = { serial := next, start := now, complete := tickFuture } :=
    fun r hr => (mem_append.mp hr).imp_right mem_singleton.mp
  constructor
  · rw [pairwise_append]
    refine ⟨h.ordered, pairwise_singleton _ _, fun r hr r' hr' => ?_⟩
    rw [mem_singleton.mp hr']
    exact ⟨h.fresh r hr, h.started r hr⟩
  · intro r hr
    rcases hcases r hr with hr | rfl
    · exact (h.fresh r hr).trans (Nat.lt_succ_self next)
    · exact Nat.lt_succ_self next
  · intro r hr
    rcases hcases r hr with hr | rfl
    · exact h.started r hr
    · exact le_rfl
  · intro r hr
    rcases hcases r hr with hr | rfl
    · exact h.inFlight r hr
    · rfl
  · intro s vs hvs
    by_cases heq : s = next
    · exact ⟨_, mem_append_right _ (mem_singleton.mpr rfl), heq.symm⟩
    · rw [update_of_ne heq] at hvs
      obtain ⟨r, hr, hserial⟩ := h.tracked s vs hvs
      exact ⟨r, mem_append_left _ hr, hserial⟩
  · exact h.observed
  · exact h.span
  · intro o ho
    refine (h.oldest o ho).imp_right fun hlt => ⟨hlt.1, fun r hr => ?_⟩
    rcases hcases r hr with hr | rfl
    · exact hlt.2 r hr
    · exact hlt.1

end

theorem mem_eraseSerial : r ∈ eraseSerial serial out ↔ r ∈ out ∧ r.serial ≠ serial := by
  rw [eraseSerial, mem_filter, decide_eq_true_iff]

/-- A read becomes an observation. -/
theorem observe (h : ReadsOk out obs seen next now) (hr : r ∈ out) (v : UInt8) :
    ReadsOk (eraseSerial r.serial out)
      ({ serial := r.serial, start := r.start, complete := now, data := v } :: obs)
      (update seen r.serial none) next now := by
  constructor
  · exact h.ordered.sublist filter_sublist
  · exact fun r' hr' => h.fresh r' (mem_eraseSerial.mp hr').1
  · exact fun r' hr' => h.started r' (mem_eraseSerial.mp hr').1
  · exact fun r' hr' => h.inFlight r' (mem_eraseSerial.mp hr').1
  · intro s vs hvs
    have hne : s ≠ r.serial := by
      rintro rfl
      simp at hvs
    rw [update_of_ne hne] at hvs
    obtain ⟨r', hr', rfl⟩ := h.tracked s vs hvs
    exact ⟨r', mem_eraseSerial.mpr ⟨hr', hne⟩, rfl⟩
  · exact cons_ne_nil _ _
  · intro o ho
    rcases mem_cons.mp ho with rfl | ho
    · exact ⟨h.started r hr, le_rfl⟩
    · exact h.span o ho
  · intro o ho
    rw [getLast?_cons_of_ne_nil h.observed] at ho
    exact (h.oldest o ho).imp_right fun hlt =>
      ⟨hlt.1, fun r' hr' => hlt.2 r' (mem_eraseSerial.mp hr').1⟩

theorem findSerial_eq_some (h : ReadsOk out obs seen next now) (hr : r ∈ out) :
    findSerial r.serial out = some r := by
  obtain ⟨l₁, l₂, rfl, hother⟩ := exists_split_of_mem h.serials hr
  exact findSerial_split hother

/-- The reads that are outstanding started at the tick of the pruning or later. -/
theorem pruneTick_le {t : ByteTracker}
    (h : ReadsOk t.outstandingReads t.readObservations seen next now) :
    t.pruneTick now ≤ now ∧ ∀ r ∈ t.outstandingReads, t.pruneTick now ≤ r.start := by
  have hordered := h.ordered
  have hstarted := h.started
  rw [ByteTracker.pruneTick]
  cases hout : t.outstandingReads with
  | nil => exact ⟨le_rfl, fun _ hr => absurd hr not_mem_nil⟩
  | cons r₀ out =>
    rw [hout] at hordered hstarted
    refine ⟨hstarted r₀ mem_cons_self, fun r hr => ?_⟩
    rcases mem_cons.mp hr with rfl | hr
    · exact le_rfl
    · exact ((pairwise_cons.mp hordered).1 r hr).2

/-- The observations that are kept. -/
theorem prune {before : ℕ} (h : ReadsOk out obs seen next now) (hnow : before ≤ now)
    (hout : ∀ r ∈ out, before ≤ r.start) :
    ∃ obs', eraseOlder Transaction.complete before obs = .ok obs' ∧ (∀ o ∈ obs', o ∈ obs) ∧
      ReadsOk out obs' seen next now := by
  obtain ⟨newer, it, older, hf, rfl, hit⟩ :=
    eraseOlder_spec Transaction.complete before h.observed
  have hsub : ∀ o ∈ newer ++ [it], o ∈ newer ++ it :: older :=
    fun o ho => (List.Sublist.append_left (by simp) newer).subset ho
  refine ⟨newer ++ [it], hf, hsub,
    { h with
      observed := by simp
      span := fun o ho => h.span o (hsub o ho)
      oldest := ?_ }⟩
  intro o ho
  obtain rfl : it = o := by simpa using ho
  -- something was erased after an entry that completed in time, or nothing was
  rcases hit with hlt | rfl
  · exact .inr ⟨hlt.trans_le hnow, fun r hr => hlt.trans_le (hout r hr)⟩
  · exact h.oldest it (by simp)

end ReadsOk

/-! ## The value of the register -/

/-- The reads that are late enough return the value of the register. -/
def Since (late : Transaction → Prop) (reg : Register) (obs out : List Transaction) : Prop :=
  (∀ o ∈ obs, late o → o.data = reg.value) ∧
    ∀ r ∈ out, late r → ∀ vs ∈ reg.seen r.serial, ∀ v ∈ vs, v = reg.value

/-- The write from which the register has its value. -/
structure Source (reg : Register) (cl : List WriteCluster) (obs out : List Transaction)
    (w : Transaction) : Prop where
  taken : reg.taken w.serial = true
  data : w.data = reg.value
  latest : ∀ u, Tracked cl u → reg.taken u.serial = true → u.start ≤ w.complete
  since : Since (fun x => w.complete < x.start) reg obs out

def Current (reg : Register) (cl : List WriteCluster) (obs out : List Transaction) : Prop :=
  Reaches (Source reg cl obs out) (fun u => reg.taken u.serial = false) cl ∨
    ((∀ u, Tracked cl u → reg.taken u.serial = false) ∧
      Since (fun x => x.complete ≠ tickInitial) reg obs out)

theorem Since.mono {late : Transaction → Prop} {obs' out' : List Transaction}
    (h : Since late reg obs out) (hobs : ∀ o ∈ obs', o ∈ obs) (hout : ∀ r ∈ out', r ∈ out) :
    Since late reg obs' out' :=
  ⟨fun o ho => h.1 o (hobs o ho), fun r hr => h.2 r (hout r hr)⟩

/-- The value of the register is accepted for a read that starts now. -/
theorem Current.accepted (h : Current reg cl obs out)
    (hwrites : WritesOk cl reg.written reg.taken next now)
    (hreads : ReadsOk out obs reg.seen next now) (hnow : now < tickFuture) (ho : o ∈ obs) :
    Accepted reg.taken cl o now reg.value := by
  -- a write that has not taken effect is in flight
  have hno : ∀ u, Tracked cl u → reg.taken u.serial = false → ¬ Stops o now u := by
    intro u hu ht hstop
    have hopen : u.complete = tickFuture := hwrites.open_of_not_taken hu ht
    have := hstop.2
    omega
  rcases h with hreach | ⟨hnone, hsince⟩
  · by_cases hskip : ∃ w, Source reg cl obs out w ∧ Skipped o w
    · -- the observation is later than the write
      obtain ⟨w, hsource, hskip⟩ := hskip
      have hspan := hreads.span o ho
      have hskip : w.complete < o.start := hskip
      refine .inr (.inl ⟨?_, hsource.since.1 o ho hskip, ?_⟩)
      · exact ne_of_gt (lt_of_le_of_lt (Nat.zero_le _) (hskip.trans_le hspan.1))
      · rintro u hu ⟨hstop, hlt⟩
        cases ht : reg.taken u.serial with
        | false => exact hno u hu ht hstop
        | true =>
          have := hsource.latest u hu ht
          omega
    · refine .inl (hreach.mono (fun w _ hsource => ?_) hno)
      exact ⟨hsource.taken, fun hs => hskip ⟨w, hsource, hs⟩, hsource.data⟩
  · by_cases hinitial : o.complete = tickInitial
    · exact .inr (.inr ⟨hinitial, fun u hu => hno u hu (hnone u hu)⟩)
    · refine .inr (.inl ⟨hinitial, hsince.1 o ho hinitial, ?_⟩)
      exact fun u hu hout => hno u hu (hnone u hu) hout.1

/-- An accepted value stays accepted when the writes that are new overlap the read. -/
theorem Accepted.revise {taken : ℕ → Bool} {start : ℕ} (h : Accepted taken cl o start v)
    (hreach : Reaches (fun w => taken w.serial = true ∧ ¬ Skipped o w ∧ w.data = v)
        (fun w => ¬ Stops o start w) cl →
      Reaches (fun w => taken w.serial = true ∧ ¬ Skipped o w ∧ w.data = v)
        (fun w => ¬ Stops o start w) cl')
    (hsub : ∀ w, Tracked cl' w → Tracked cl w ∨ start < w.complete) :
    Accepted taken cl' o start v := by
  have hold : ∀ w, Tracked cl' w → Stops o start w → Tracked cl w := by
    intro w hw hstop
    exact (hsub w hw).resolve_right (not_lt.mpr hstop.2)
  rcases h with h | ⟨hvalid, hdata, hno⟩ | ⟨hinitial, hno⟩
  · exact .inl (hreach h)
  · exact .inr (.inl ⟨hvalid, hdata, fun w hw hout => hno w (hold w hw hout.1) hout⟩)
  · exact .inr (.inr ⟨hinitial, fun w hw hstop => hno w (hold w hw hstop) hstop⟩)

/-! ## The invariant -/

structure Sound (t : ByteTracker) (reg : Register) (next now : ℕ) : Prop where
  now_lt : now < tickFuture
  writes : WritesOk t.writeClusters reg.written reg.taken next now
  begun : ∀ c ∈ t.writeClusters, c.start ≤ now
  reads : ReadsOk t.outstandingReads t.readObservations reg.seen next now
  accepts : ∀ r ∈ t.outstandingReads, ∀ o, t.lastObservation r.start = .ok o →
    ∀ vs ∈ reg.seen r.serial, ∀ v ∈ vs, Accepted reg.taken t.writeClusters o r.start v
  current : Current reg t.writeClusters t.readObservations t.outstandingReads

/-- The writes `c'` of the latest cluster in the place of `c`: those that took effect are
kept, and those that are new or complete now overlap the outstanding reads. -/
structure Revised (taken : ℕ → Bool) (out : List Transaction) (now : ℕ) (c c' : WriteCluster) :
    Prop where
  keeps : ∀ w ∈ c.writes, taken w.serial = true →
    ∃ w' ∈ c'.writes, w'.serial = w.serial ∧ w'.data = w.data ∧ (w' = w ∨ now ≤ w'.complete)
  adds : ∀ w' ∈ c'.writes, w' ∈ c.writes ∨
    ((∀ r ∈ out, r.start < w'.complete) ∧
      (taken w'.serial = true → ∃ w ∈ c.writes, taken w.serial = true ∧ w.start = w'.start))

namespace Sound

variable {t : ByteTracker} {written' : ℕ → Option UInt8}

theorem initial (value : UInt8) : Sound {} { value } serialInitial tickInitial where
  now_lt := by decide
  writes :=
    { cluster := by simp
      closed := by simp
      ordered := List.Pairwise.nil
      inFlight := by simp
      fresh := by simp [Tracked]
      completed := by simp [Tracked]
      taken_lt := by simp }
  begun := by simp
  reads :=
    { ordered := List.Pairwise.nil
      fresh := by simp
      started := by simp
      inFlight := by simp
      tracked := by simp
      observed := by simp
      span := by simp
      oldest := by simp }
  accepts := by simp
  current := .inr ⟨by simp [Tracked], by simp, by simp⟩

section

variable (h : Sound t reg next now)

include h

/-- Time passes, and serials are handed out. -/
theorem mono (hnext : next ≤ next') (hnow : now ≤ now')
    (hlt : now' < tickFuture) : Sound t reg next' now' where
  now_lt := hlt
  writes := h.writes.mono hnext hnow
  begun c hc := (h.begun c hc).trans hnow
  reads := h.reads.mono hnext hnow
  accepts := h.accepts
  current := h.current

theorem obs_start_le (hr : r ∈ t.outstandingReads)
    (ho : t.lastObservation r.start = .ok o) : o.start ≤ now := by
  obtain ⟨o', ho', hlast, -⟩ := h.reads.exists_last (.inr ⟨r, hr, rfl⟩)
  rw [ByteTracker.lastObservation, hlast] at ho
  cases ho
  exact h.reads.start_le ho'

/-- The latest cluster is replaced by a revised one. -/
theorem revise (hhead : t.writeClusters = c :: rest ∨ (c = {} ∧ rest = t.writeClusters))
    (hrev : Revised reg.taken t.outstandingReads now c c') (hstart : c'.start ≤ now)
    (hwrites : WritesOk (c' :: rest) written' reg.taken next' now) (hnext : next ≤ next') :
    Sound { t with writeClusters := c' :: rest } { reg with written := written' } next' now := by
  -- a cluster that has just been opened is empty, and the search goes past it
  have hopen : ∀ P Q : Transaction → Prop,
      Reaches P Q t.writeClusters → Reaches P Q (c :: rest) := by
    intro P Q hreach
    rcases hhead with hcl | ⟨rfl, rfl⟩
    · exact hcl ▸ hreach
    · exact .inr ⟨fun _ hw => absurd hw not_mem_nil, hreach⟩
  have htracked : ∀ w, Tracked (c :: rest) w → Tracked t.writeClusters w := by
    intro w hw
    rcases hhead with hcl | ⟨rfl, rfl⟩
    · exact hcl ▸ hw
    · exact (tracked_cons.mp hw).resolve_left not_mem_nil
  have hrest : ∀ w, Tracked rest w → Tracked t.writeClusters w := fun w hw => htracked w hw.of_tail
  constructor
  · exact h.now_lt
  · exact hwrites
  · intro d hd
    rcases mem_cons.mp hd with rfl | hd
    · exact hstart
    · refine h.begun d ?_
      rcases hhead with hcl | ⟨-, rfl⟩
      · rw [hcl]
        exact mem_cons_of_mem _ hd
      · exact hd
  · exact h.reads.mono hnext le_rfl
  · intro r hr o ho vs hvs v hv
    -- a write that the scan found is still there, or completes after the observation
    have hobs := h.obs_start_le hr ho
    refine (h.accepts r hr o ho vs hvs v hv).revise (fun hreach => ?_) fun w hw => ?_
    · refine (hopen _ _ hreach).head ?_ ?_
      · rintro w hw ⟨htaken, hskip, hdata⟩
        obtain ⟨w', hw', hserial, hdata', hw'w⟩ := hrev.keeps w hw htaken
        refine ⟨w', hw', hserial ▸ htaken, ?_, hdata'.trans hdata⟩
        rcases hw'w with rfl | hle
        · exact hskip
        · exact not_lt.mpr (hobs.trans hle)
      · intro hall w' hw'
        rcases hrev.adds w' hw' with hw' | ⟨hlt, -⟩
        · exact hall w' hw'
        · exact fun hstop => absurd hstop.2 (not_le.mpr (hlt r hr))
    · rcases tracked_cons.mp hw with hw | hw
      · exact (hrev.adds w hw).imp (fun hw => htracked w (.of_head hw)) fun hnew => hnew.1 r hr
      · exact .inl (hrest w hw)
  · -- a write of the new clusters that took effect starts as one of the old clusters does
    have hold : ∀ u, Tracked (c' :: rest) u → reg.taken u.serial = true →
        ∃ w, Tracked t.writeClusters w ∧ reg.taken w.serial = true ∧ w.start = u.start := by
      intro u hu htaken
      rcases tracked_cons.mp hu with hu | hu
      · rcases hrev.adds u hu with hu | ⟨-, hnew⟩
        · exact ⟨u, htracked u (.of_head hu), htaken, rfl⟩
        · obtain ⟨w, hw, hw'⟩ := hnew htaken
          exact ⟨w, htracked w (.of_head hw), hw'⟩
      · exact ⟨u, hrest u hu, htaken, rfl⟩
    rcases h.current with hreach | ⟨hnone, hsince⟩
    · have hreach : Reaches
          (Source { reg with written := written' } (c' :: rest) t.readObservations
            t.outstandingReads)
          (fun u => reg.taken u.serial = false) t.writeClusters := by
        refine hreach.mono (fun w _ hw => ?_) fun _ _ hu => hu
        refine ⟨hw.taken, hw.data, fun u hu htaken => ?_, hw.since⟩
        obtain ⟨w₁, hw₁, htaken₁, heq⟩ := hold u hu htaken
        exact heq ▸ hw.latest w₁ hw₁ htaken₁
      refine .inl ((hopen _ _ hreach).head ?_ ?_)
      · intro w hw hsource
        obtain ⟨w', hw', hserial, hdata', hw'w⟩ := hrev.keeps w hw hsource.taken
        rcases hw'w with rfl | hle
        · exact ⟨w', hw', hsource⟩
        · refine ⟨w', hw', ?_, hdata'.trans hsource.data, fun u hu _ => ?_, ?_, ?_⟩
          · exact hserial ▸ hsource.taken
          · exact (hwrites.start_le hu).trans hle
          · exact fun o ho hlt => absurd hlt (not_lt.mpr ((h.reads.start_le ho).trans hle))
          · exact fun r hr hlt =>
              absurd hlt (not_lt.mpr ((h.reads.started r hr).trans hle))
      · intro hall w' hw'
        rcases hrev.adds w' hw' with hw' | ⟨-, hnew⟩
        · exact hall w' hw'
        · refine Bool.eq_false_iff.mpr fun htaken => ?_
          obtain ⟨w, hw, htaken, -⟩ := hnew htaken
          exact Bool.false_ne_true ((hall w hw).symm.trans htaken)
    · refine .inr ⟨fun u hu => Bool.eq_false_iff.mpr fun htaken => ?_, hsince⟩
      obtain ⟨w, hw, htaken, -⟩ := hold u hu htaken
      exact Bool.false_ne_true ((hnone w hw).symm.trans htaken)

/-! ### Writes -/

theorem startWrite (data : UInt8) :
    ∃ t', t.startWrite next now data = .ok t' ∧
      Sound t' (reg.after next (.startWrite now data)) (next + 1) now := by
  obtain ⟨c, rest, hget, hc, hwrites, hhead⟩ := h.writes.getIncomplete
  have hstart : c.start = tickFuture ∨ c.start ≤ now := by
    rcases hhead with hcl | ⟨rfl, -⟩
    · exact .inr (h.begun c (by simp [hcl]))
    · exact .inl rfl
  have hfresh : ∀ w ∈ c.writes, w.serial < next := fun w hw => hwrites.fresh w (.of_head hw)
  obtain ⟨c', hc', hok, hstart', -, hws⟩ :=
    (hwrites.cluster c mem_cons_self).startWrite hc hstart hfresh data
  have hcases : ∀ w' ∈ c'.writes, w' ∈ c.writes ∨
      w' = { serial := next, start := now, complete := tickFuture, data } := by
    intro w' hw'
    rw [hws] at hw'
    exact (mem_append.mp hw').imp_right mem_singleton.mp
  refine ⟨{ t with writeClusters := c' :: rest }, ?_, ?_⟩
  · rw [ByteTracker.startWrite, hget, hc']
    rfl
  refine h.revise hhead ⟨fun w hw _ => ?_, fun w' hw' => ?_⟩ hstart' ?_ (Nat.le_succ next)
  · exact ⟨w, by simp [hws, hw], rfl, rfl, .inl rfl⟩
  · refine (hcases w' hw').imp_right ?_
    rintro rfl
    -- its serial is new, so it has not taken effect
    refine ⟨fun r hr => (h.reads.started r hr).trans_lt h.now_lt, fun htaken => ?_⟩
    exact absurd (h.writes.taken_lt next htaken) (lt_irrefl next)
  · refine hwrites.replaceHead hok (Nat.le_succ next) ?_ ?_ ?_ ?_
    · intro w' hw'
      rcases hcases w' hw' with hw' | rfl
      · exact .inl ⟨w', hw', rfl⟩
      · exact .inr le_rfl
    · intro serial d hs
      rcases eq_or_ne serial next with rfl | heq
      · have hd : data = d := by simpa using hs
        exact ⟨{ serial, start := now, complete := tickFuture, data }, by simp [hws], rfl, rfl, hd⟩
      · rw [update_of_ne heq] at hs
        obtain ⟨d', hd', w, hw, hfound⟩ := hwrites.inFlight serial d hs
        cases hd'
        exact ⟨w, by simp [hws, hw], hfound⟩
    · intro w' hw'
      rcases hcases w' hw' with hw' | rfl
      · exact (hfresh w' hw').trans (Nat.lt_succ_self next)
      · exact Nat.lt_succ_self next
    · intro w' hw' hopen
      rcases hcases w' hw' with hw' | rfl
      · exact hwrites.completed w' (.of_head hw') hopen
      · exact absurd rfl hopen

/-- The tracker of `completeWrite` before it is pruned. -/
theorem completeWrite {d : UInt8} (hs : reg.written serial = some d)
    (htaken : reg.taken serial = true) (htie : ∀ r ∈ t.outstandingReads, r.start ≠ now) :
    ∃ cl', t.completeWrite serial now =
        ({ t with writeClusters := cl' } : ByteTracker).pruneTransactions now ∧
      Sound { t with writeClusters := cl' }
        { reg with written := update reg.written serial none } next now := by
  obtain ⟨c, rest, w, hcl, hget, hw, rfl, hopen, -⟩ := h.writes.exists_of_written hs
  have hwrites := h.writes
  rw [hcl] at hwrites
  have hcok := hwrites.cluster c mem_cons_self
  obtain ⟨c', hc', hok, hstart', hws⟩ := hcok.completeWrite hw hopen h.now_lt
  have hcases : ∀ w' ∈ c'.writes, (w' ∈ c.writes ∧ w'.serial ≠ w.serial) ∨
      w' = { w with complete := now } := by
    intro w' hw'
    rw [hws] at hw'
    obtain ⟨u, hu, rfl⟩ := mem_map.mp hw'
    split_ifs with heq
    · exact .inr (by rw [inj_on_of_nodup_map hcok.serials hu hw heq])
    · exact .inl ⟨hu, heq⟩
  have hkeep : ∀ u ∈ c.writes, u.serial ≠ w.serial → u ∈ c'.writes := by
    intro u hu hne
    rw [hws]
    exact mem_map.mpr ⟨u, hu, if_neg hne⟩
  have hnew : { w with complete := now } ∈ c'.writes := by
    rw [hws]
    exact mem_map.mpr ⟨w, hw, if_pos rfl⟩
  refine ⟨c' :: rest, ?_, ?_⟩
  · rw [ByteTracker.completeWrite, hget, hc']
    rfl
  refine h.revise (.inl hcl) ⟨fun u hu _ => ?_, fun w' hw' => ?_⟩ ?_ ?_ le_rfl
  · by_cases heq : u.serial = w.serial
    · obtain rfl := inj_on_of_nodup_map hcok.serials hu hw heq
      exact ⟨_, hnew, rfl, rfl, .inr le_rfl⟩
    · exact ⟨u, hkeep u hu heq, rfl, rfl, .inl rfl⟩
  · rcases hcases w' hw' with ⟨hw', -⟩ | rfl
    · exact .inl hw'
    · -- with a tie the write would precede the read for the checker
      refine .inr ⟨fun r hr => ?_, fun _ => ⟨w, hw, htaken, rfl⟩⟩
      exact lt_of_le_of_ne (h.reads.started r hr) (htie r hr)
  · rw [hstart']
    exact h.begun c (by simp [hcl])
  · refine hwrites.replaceHead hok le_rfl ?_ ?_ ?_ ?_
    · intro w' hw'
      rcases hcases w' hw' with ⟨hw', -⟩ | rfl
      · exact .inl ⟨w', hw', rfl⟩
      · exact .inl ⟨w, hw, rfl⟩
    · exact hwrites.inFlight_update_none hkeep
    · intro w' hw'
      rcases hcases w' hw' with ⟨hw', -⟩ | rfl
      · exact hwrites.fresh w' (.of_head hw')
      · exact hwrites.fresh w (.of_head hw)
    · intro w' hw' hdone
      rcases hcases w' hw' with ⟨hw', -⟩ | rfl
      · exact hwrites.completed w' (.of_head hw') hdone
      · exact htaken

theorem abortWrite {d : UInt8} (hs : reg.written serial = some d)
    (htaken : ¬ reg.taken serial = true) :
    Sound (t.abortWrite serial) (reg.after next (.abortWrite serial)) next now := by
  obtain ⟨c, rest, w, hcl, hget, hw, rfl, hopen, -⟩ := h.writes.exists_of_written hs
  have hwrites := h.writes
  rw [hcl] at hwrites
  obtain ⟨hok, hstart', hws⟩ := (hwrites.cluster c mem_cons_self).abortWrite hw hopen
  have hcases : ∀ u, u ∈ (c.abortWrite w.serial).writes ↔ u ∈ c.writes ∧ u.serial ≠ w.serial := by
    intro u
    rw [hws, eraseSerial, mem_filter, decide_eq_true_iff]
  have ht : t.abortWrite w.serial = { t with writeClusters := c.abortWrite w.serial :: rest } := by
    rw [ByteTracker.abortWrite, hget]
  rw [ht]
  refine h.revise (.inl hcl) ⟨fun u hu hu' => ?_, fun u hu => ?_⟩ ?_ ?_ le_rfl
  · have hne : u.serial ≠ w.serial := fun heq => htaken (heq ▸ hu')
    exact ⟨u, (hcases u).mpr ⟨hu, hne⟩, rfl, rfl, .inl rfl⟩
  · exact .inl ((hcases u).mp hu).1
  · rw [hstart']
    exact h.begun c (by simp [hcl])
  · refine hwrites.replaceHead hok le_rfl ?_ ?_ ?_ ?_
    · exact fun u hu => .inl ⟨u, ((hcases u).mp hu).1, rfl⟩
    · exact hwrites.inFlight_update_none fun u hu hne => (hcases u).mpr ⟨hu, hne⟩
    · exact fun u hu => hwrites.fresh u (.of_head ((hcases u).mp hu).1)
    · exact fun u hu => hwrites.completed u (.of_head ((hcases u).mp hu).1)

/-- The write that takes effect becomes the source of the value. -/
theorem effect {d : UInt8} (hs : reg.written serial = some d) :
    Sound t (reg.takeEffect serial d) next now := by
  obtain ⟨c, rest, w, hcl, -, hw, rfl, hopen, rfl⟩ := h.writes.exists_of_written hs
  have htaken : update reg.taken w.serial true w.serial = true := update_self ..
  have hmono : ∀ s, reg.taken s = true → update reg.taken w.serial true s = true := by
    intro s hs
    rw [update_apply]
    split
    · rfl
    · exact hs
  have htracked : Tracked t.writeClusters w := hcl ▸ .of_head hw
  have hcomplete : w.complete = tickFuture := hopen
  have hnow := h.now_lt
  constructor
  · exact hnow
  · refine { h.writes with completed := ?_, taken_lt := ?_ }
    · exact fun u hu hdone => hmono _ (h.writes.completed u hu hdone)
    · intro s hs
      by_cases heq : s = w.serial
      · exact heq ▸ h.writes.fresh w htracked
      · have hs : update reg.taken w.serial true s = true := hs
        exact h.writes.taken_lt s (by rwa [update_of_ne heq] at hs)
  · exact h.begun
  · refine { h.reads with tracked := ?_ }
    intro s vs hvs
    obtain ⟨vs', hvs', -⟩ := Option.map_eq_some_iff.mp hvs
    exact h.reads.tracked s vs' hvs'
  · intro r hr o ho vs hvs v hv
    obtain ⟨vs', hvs', rfl⟩ := Option.map_eq_some_iff.mp hvs
    -- the new value is that of a write in flight in the latest cluster
    rcases mem_cons.mp hv with rfl | hv
    · refine .inl (.of_head hcl hw ⟨htaken, fun hskip => ?_, rfl⟩)
      have hskip : w.complete < o.start := hskip
      have := h.obs_start_le hr ho
      omega
    · refine (h.accepts r hr o ho vs' hvs' v hv).imp_left fun hreach => ?_
      exact hreach.mono (fun u _ hu => ⟨hmono _ hu.1, hu.2⟩) fun _ _ hu => hu
  · refine .inl (.of_head hcl hw ⟨htaken, rfl, fun u hu _ => ?_, ?_, ?_⟩)
    · have := h.writes.start_le hu
      omega
    · intro o ho hlt
      have := h.reads.start_le ho
      omega
    · intro r hr hlt
      have := h.reads.started r hr
      omega

/-! ### Reads -/

theorem startRead :
    Sound (t.startRead next now) (reg.after next (.startRead now)) (next + 1) now := by
  have hout : (t.startRead next now).outstandingReads =
      t.outstandingReads ++ [{ serial := next, start := now, complete := tickFuture }] :=
    insertBySerial_eq_append h.reads.fresh
  have hcases : ∀ r ∈ (t.startRead next now).outstandingReads, r ∈ t.outstandingReads ∨
      r = { serial := next, start := now, complete := tickFuture } := by
    intro r hr
    rw [hout] at hr
    exact (mem_append.mp hr).imp_right mem_singleton.mp
  have hseen : ∀ r ∈ t.outstandingReads,
      update reg.seen next (some [reg.value]) r.serial = reg.seen r.serial :=
    fun r hr => update_of_ne (h.reads.fresh r hr).ne _ _
  have hvalue : ∀ vs ∈ update reg.seen next (some [reg.value]) next, ∀ v ∈ vs,
      v = reg.value := by
    intro vs hvs v hv
    rw [update_self] at hvs
    cases hvs
    exact mem_singleton.mp hv
  constructor
  · exact h.now_lt
  · exact h.writes.mono (Nat.le_succ next) le_rfl
  · exact h.begun
  · rw [hout]
    exact h.reads.startRead _
  · intro r hr o ho vs hvs v hv
    rcases hcases r hr with hr | rfl
    · exact h.accepts r hr o ho vs ((hseen r hr).symm.trans hvs) v hv
    · obtain ⟨o', ho', hlast, -⟩ := h.reads.exists_last (.inl rfl)
      obtain rfl : o' = o := Except.ok.inj (hlast.symm.trans ho)
      rw [hvalue vs hvs v hv]
      exact h.current.accepted h.writes h.reads h.now_lt ho'
  · have hsince : ∀ late, Since late reg t.readObservations t.outstandingReads →
        Since late (reg.after next (.startRead now)) t.readObservations
          (t.startRead next now).outstandingReads := by
      refine fun late hs => ⟨hs.1, fun r hr hlate vs hvs => ?_⟩
      rcases hcases r hr with hr | rfl
      · exact hs.2 r hr hlate vs ((hseen r hr).symm.trans hvs)
      · exact hvalue vs hvs
    refine h.current.imp (fun hreach => ?_) fun hnone => ⟨hnone.1, hsince _ hnone.2⟩
    refine hreach.mono (fun w _ hw => ?_) fun _ _ hu => hu
    exact ⟨hw.taken, hw.data, hw.latest, hsince _ hw.since⟩

/-- The tracker of `completeRead` before it is pruned. -/
theorem observe (hr : r ∈ t.outstandingReads) {vs : List UInt8}
    (hvs : reg.seen r.serial = some vs) (hv : v ∈ vs) :
    Sound
      { t with
        outstandingReads := eraseSerial r.serial t.outstandingReads
        readObservations :=
          { serial := r.serial, start := r.start, complete := now, data := v } ::
            t.readObservations }
      { reg with seen := update reg.seen r.serial none } next now := by
  have hseen : ∀ r' ∈ eraseSerial r.serial t.outstandingReads,
      update reg.seen r.serial none r'.serial = reg.seen r'.serial :=
    fun r' hr' => update_of_ne (ReadsOk.mem_eraseSerial.mp hr').2 _ _
  constructor
  · exact h.now_lt
  · exact h.writes
  · exact h.begun
  · exact h.reads.observe hr v
  · intro r' hr' o ho vs hvs
    have hmem := (ReadsOk.mem_eraseSerial.mp hr').1
    -- the observation completes after the reads that are outstanding have started
    rw [ByteTracker.lastObservation,
      last_of_later (h.reads.started r' hmem) h.reads.observed] at ho
    exact h.accepts r' hmem o ho vs ((hseen r' hr').symm.trans hvs)
  · have hsince : ∀ late : Transaction → Prop,
        (late { serial := r.serial, start := r.start, complete := now, data := v } → late r) →
        Since late reg t.readObservations t.outstandingReads →
        Since late { reg with seen := update reg.seen r.serial none }
          ({ serial := r.serial, start := r.start, complete := now, data := v } ::
            t.readObservations)
          (eraseSerial r.serial t.outstandingReads) := by
      refine fun late hlate hs => ⟨fun o ho ho' => ?_, fun r' hr' hr'' vs hvs => ?_⟩
      · rcases mem_cons.mp ho with rfl | ho
        · exact hs.2 r hr (hlate ho') vs hvs v hv
        · exact hs.1 o ho ho'
      · exact hs.2 r' (ReadsOk.mem_eraseSerial.mp hr').1 hr'' vs ((hseen r' hr').symm.trans hvs)
    refine h.current.imp (fun hreach => ?_) fun hnone => ⟨hnone.1, hsince _ (fun _ => ?_) hnone.2⟩
    · refine hreach.mono (fun w _ hw => ?_) fun _ _ hu => hu
      exact ⟨hw.taken, hw.data, hw.latest, hsince _ (fun hlt => hlt) hw.since⟩
    · have hopen : r.complete = tickFuture := h.reads.inFlight r hr
      rw [hopen]
      decide

/-- The answer to a read is positive. -/
theorem inExpectedData (hr : r ∈ t.outstandingReads) {vs : List UInt8}
    (hvs : reg.seen r.serial = some vs) (hv : v ∈ vs)
    (htie : ∀ c ∈ t.writeClusters, c.start ≠ now) :
    t.inExpectedData r.start now v = .ok true := by
  obtain ⟨o, ho, hlast, hstart⟩ := h.reads.exists_last (.inr ⟨r, hr, rfl⟩)
  refine inExpectedData_of_accepted hlast hstart (h.accepts r hr o hlast vs hvs v hv) ?_
  intro hinitial hno c hc
  refine ⟨lt_of_le_of_ne (h.begun c hc) (htie c hc), ?_⟩
  have hread := h.reads.started r hr
  have hnow := h.now_lt
  by_cases hcomplete : c.complete = tickFuture
  · omega
  · -- a complete cluster has a write, and it does not end the scan
    obtain ⟨-, hne, hall⟩ := (h.writes.cluster c hc).of_complete hcomplete
    obtain ⟨w, hw⟩ := exists_mem_of_ne_nil _ hne
    have hspan := h.reads.span o ho
    have hinitial : o.complete = 0 := hinitial
    have hnskip : ¬ Skipped o w := by
      show ¬ w.complete < o.start
      omega
    have hstop : ¬ w.complete ≤ r.start := fun hle => hno w ⟨c, hc, hw⟩ ⟨hnskip, hle⟩
    have := (hall w hw).2
    omega

/-! ### Pruning -/

/-- The observations that are kept. -/
theorem pruneReads :
    ∃ obs', eraseOlder Transaction.complete (t.pruneTick now) t.readObservations = .ok obs' ∧
      Sound { t with readObservations := obs' } reg next now := by
  obtain ⟨hnow, hout⟩ := h.reads.pruneTick_le
  obtain ⟨obs', hf, hsub, hreads⟩ := h.reads.prune hnow hout
  refine ⟨obs', hf, h.now_lt, h.writes, h.begun, hreads, ?_, ?_⟩
  · intro r hr o ho
    rw [ByteTracker.lastObservation, last_of_eraseOlder (hout r hr) hf] at ho
    exact h.accepts r hr o ho
  · refine h.current.imp (fun hreach => ?_) fun hnone =>
      ⟨hnone.1, hnone.2.mono hsub fun _ hr => hr⟩
    refine hreach.mono (fun w _ hw => ?_) fun _ _ hu => hu
    exact ⟨hw.taken, hw.data, hw.latest, hw.since.mono hsub fun _ hr => hr⟩

/-- The clusters that are kept. -/
theorem pruneWrites (hne : t.writeClusters ≠ []) :
    ∃ cl', eraseOlder WriteCluster.complete (t.pruneTick now) t.writeClusters = .ok cl' ∧
      Sound { t with writeClusters := cl' } reg next now := by
  obtain ⟨hnow, hout⟩ := h.reads.pruneTick_le
  obtain ⟨newer, it, older, hf, hcl, hit⟩ :=
    eraseOlder_spec WriteCluster.complete (t.pruneTick now) hne
  have hwrites := h.writes
  rw [hcl] at hwrites
  have hsub : ∀ c ∈ newer ++ [it], c ∈ t.writeClusters := by
    intro c hc
    rw [hcl]
    exact (List.Sublist.append_left (by simp) newer).subset hc
  have htracked : ∀ w, Tracked (newer ++ [it]) w → Tracked t.writeClusters w :=
    fun w ⟨c, hc, hw⟩ => ⟨c, hsub c hc, hw⟩
  -- the oldest cluster that is kept is complete, and has a write, when others are dropped
  have hpast : ∀ P Q : Transaction → Prop, (∀ w, Tracked t.writeClusters w → ¬ w.Open →
      w.complete < t.pruneTick now → Q w → ∀ u, u.complete ≤ w.complete → ¬ P u) →
      Reaches P Q t.writeClusters → Reaches P Q (newer ++ [it]) := by
    intro P Q hPQ hreach
    rw [hcl] at hreach
    refine hreach.kept_or.resolve_right ?_
    rintro ⟨hall, hreach⟩
    obtain ⟨u, ⟨d, hd, hu⟩, hP⟩ := hreach.exists_tracked
    have hlt : it.complete < t.pruneTick now := by
      refine hit.resolve_right ?_
      rintro rfl
      exact nomatch hd
    have hnow' := h.now_lt
    have hok := hwrites.cluster it (by simp)
    obtain ⟨-, hne, hdone⟩ := hok.of_complete (by omega)
    obtain ⟨w, hw⟩ := exists_mem_of_ne_nil _ hne
    obtain ⟨hopen, hle⟩ := hdone w hw
    have hstart := ((hok.span w hw).resolve_left hopen).1
    have hbefore : u.complete ≤ w.start := by
      have hpair := (pairwise_append.mp hwrites.ordered).2.1
      exact (pairwise_cons.mp hpair).1 d hd w hw u hu
    exact hPQ w ⟨it, hsub it (by simp), hw⟩ hopen (hle.trans_lt hlt) (hall w hw) u
      (hbefore.trans hstart) hP
  refine ⟨newer ++ [it], hf, h.now_lt, hwrites.prune, ?_, h.reads, ?_, ?_⟩
  · exact fun c hc => h.begun c (hsub c hc)
  · intro r hr o ho vs hvs v hv
    refine (h.accepts r hr o ho vs hvs v hv).revise (hpast _ _ ?_) ?_
    · rintro w - - hlt hstop u hle ⟨-, hskip, -⟩
      have hskip' : Skipped o w := by
        by_contra hskip'
        exact hstop ⟨hskip', hlt.le.trans (hout r hr)⟩
      exact hskip (lt_of_le_of_lt hle hskip')
    · exact fun w hw => .inl (htracked w hw)
  · rcases h.current with hreach | ⟨hnone, hsince⟩
    · refine .inl (hpast _ _ ?_ (hreach.mono (fun w _ hw => ?_) fun _ _ hu => hu))
      · intro w hw hopen _ htaken
        exact absurd (h.writes.open_of_not_taken hw htaken) hopen
      · exact ⟨hw.taken, hw.data, fun u hu => hw.latest u (htracked u hu), hw.since⟩
    · exact .inr ⟨fun u hu => hnone u (htracked u hu), hsince⟩

theorem prune :
    ∃ t', t.pruneTransactions now = .ok t' ∧ Sound t' reg next now := by
  obtain ⟨obs', hobs, h'⟩ := h.pruneReads
  rw [ByteTracker.pruneTransactions, hobs]
  by_cases hnil : t.writeClusters = []
  · exact ⟨_, if_pos hnil, h'⟩
  · obtain ⟨cl', hcl, h'⟩ := h'.pruneWrites hnil
    refine ⟨{ t with readObservations := obs', writeClusters := cl' }, (if_neg hnil).trans ?_, h'⟩
    have hcl : eraseOlder WriteCluster.complete (t.pruneTick now) t.writeClusters = .ok cl' := hcl
    rw [hcl]
    rfl

theorem completeRead {vs : List UInt8} (hvs : reg.seen serial = some vs)
    (hv : v ∈ vs) (htie : ∀ c ∈ t.writeClusters, c.start ≠ now) :
    ∃ t', t.completeRead serial now v = .ok (true, t') ∧
      Sound t' (reg.after next (.completeRead serial now v)) next now := by
  obtain ⟨r, hr, rfl⟩ := h.reads.tracked serial vs hvs
  have hfind := h.reads.findSerial_eq_some hr
  obtain ⟨t', hprune, h'⟩ := (h.observe hr hvs hv).prune
  -- the outstanding reads do not matter for what is expected
  have hexpected : ByteTracker.inExpectedData
      { t with outstandingReads := eraseSerial r.serial t.outstandingReads } r.start now v =
        .ok true := h.inExpectedData hr hvs hv htie
  refine ⟨t', ?_, h'⟩
  rw [ByteTracker.completeRead, hfind]
  dsimp only
  rw [hexpected]
  exact congrArg (· >>= fun t₃ => .ok (true, t₃)) hprune

end

end Sound

/-! ## Runs -/

namespace CheckedByte

variable {s : CheckedByte} {e : CheckerEvent}

/-- The invariant of a byte under the checker. -/
def NoAlarm (s : CheckedByte) : Prop :=
  Sound s.tracker s.register s.nextSerial s.now ∧ s.alarm = false

theorem NoAlarm.of_check {t : ByteTracker} (h : s.NoAlarm) (hcheck : s.check e = .ok (true, t))
    (ht : Sound t (s.register.after s.nextSerial e) (s.serialAfter e) (s.tickOf e)) :
    ∃ s', s.step e = .ok s' ∧ s'.NoAlarm := by
  rw [step, hcheck]
  exact ⟨_, rfl, ht, by simp [h.2]⟩

/-- **No assertion fails, and the answer is positive**, at the next event of a linearizable
history whose ticks are apart. -/
theorem NoAlarm.step (h : s.NoAlarm) (hlin : s.Linearizable e) (hapart : s.Apart e) :
    ∃ s', s.step e = .ok s' ∧ s'.NoAlarm := by
  obtain ⟨hle, htick, hallow⟩ := hlin
  have hnow : Sound s.tracker s.register s.nextSerial (s.tickOf e) :=
    h.1.mono le_rfl hle (lt_of_le_of_ne htick hapart.1)
  have htie := hapart.2
  cases e with
  | startRead tick => exact h.of_check rfl hnow.startRead
  | completeRead serial tick data =>
    obtain ⟨vs, hvs, hdata⟩ := hallow
    obtain ⟨t', ht', hsound⟩ := hnow.completeRead hvs hdata htie
    exact h.of_check ht' hsound
  | startWrite tick data =>
    obtain ⟨t', ht', hsound⟩ := hnow.startWrite data
    exact h.of_check (by exact congrArg (Except.map fun t => (true, t)) ht') hsound
  | completeWrite serial tick =>
    obtain ⟨d, hd⟩ := Option.isSome_iff_exists.mp hallow.1
    obtain ⟨cl', hcl', hsound⟩ := hnow.completeWrite hd hallow.2 htie
    obtain ⟨t', ht', hsound⟩ := hsound.prune
    have ht' := hcl'.trans ht'
    exact h.of_check (by exact congrArg (Except.map fun t => (true, t)) ht') hsound
  | abortWrite serial =>
    obtain ⟨d, hd⟩ := Option.isSome_iff_exists.mp hallow.1
    exact h.of_check rfl (hnow.abortWrite hd hallow.2)
  | effect serial =>
    obtain ⟨d, hd⟩ := Option.isSome_iff_exists.mp hallow.1
    refine h.of_check rfl ?_
    rw [Register.after, hd]
    exact hnow.effect hd
  | startOther =>
    exact h.of_check rfl (hnow.mono (Nat.le_succ _) le_rfl hnow.now_lt)

/-- **The checker raises no false alarm** in a linearizable history, whatever the value of the
byte at its start, in which no write completes at the start tick of an outstanding read and no
read at the start tick of a write cluster: every answer is positive, and at every further such
event no assertion fails. -/
theorem checker_no_false_alarm {value : UInt8} {es : List CheckerEvent} {s : CheckedByte}
    (h : Runs (Within step fun s e => s.Linearizable e ∧ s.Apart e) (initial value) es s) :
    s.alarm = false ∧
      ∀ e, s.Linearizable e → s.Apart e → ∃ s', s.step e = .ok s' ∧ s'.alarm = false := by
  have hs : s.NoAlarm :=
    h.invariant_of_progress (fun _ _ hs hok => hs.step hok.1 hok.2) ⟨Sound.initial value, rfl⟩
  refine ⟨hs.2, fun e hlin hapart => ?_⟩
  obtain ⟨s', hs', hnext⟩ := hs.step hlin hapart
  exact ⟨s', hs', hnext.2⟩

/-- Two overlapping writes and an aborted one, with a read that overlaps all of them and
returns the value of the second, and a later read that returns that of the first. -/
theorem checker_no_false_alarm_overlapping :
    ∃ s, Runs (Within step fun s e => s.Linearizable e ∧ s.Apart e) (initial 7)
        [.startRead 1, .completeRead 0 2 7, .startWrite 3 1, .startOther, .startRead 4,
          .startWrite 5 2, .startWrite 6 9, .effect 4, .abortWrite 5, .effect 1,
          .completeWrite 4 8, .completeRead 3 9 2, .startRead 9, .completeWrite 1 11,
          .completeRead 6 12 1] s ∧ s.alarm = false := by
  refine exists_runs_imp_of_execWithin (P := fun _ => True) (by decide +kernel) ?_
  intro s hs _
  exact (checker_no_false_alarm hs).1

end CheckedByte

end MemChecker
