/-
# The blocking counter of locked read-modify-writes

A core that takes the read of a locked read-modify-write from its mandatory
queue opens a window and sends GETMATOMICST to the other L1s; the write closes
the window and sends GETMATOMICEN.  The receivers count up and down in
`is_blocked`.

For one line the argument is a balance: `L1.level`, the counter corrected by the
messages still on their way, plus the own window is the same number for every
L1, the number of open windows (`Line.Balanced`).  Summing over the lines gives
the counter of the controller.  It counts windows and not cores: the Sequencer
blocks only the line of a locked read-modify-write, so a core can open a second
window on another line before it closes the first.
-/
import Gem5.MsiAccounting

open Function

variable {n : ℕ} {β : Type}

/-! ## Windows and levels -/

variable (l : L1 n β)

/-- The core has taken the read of a locked read-modify-write from its mandatory queue and the
write is not yet done. -/
def L1.windowOpen : Bool :=
  l.blocked || (!l.inMandatoryQueue && l.request.any fun r => r.type == .Locked_RMW_Read)

/-- GETMATOMICST messages in flight to the L1. -/
def L1.starts : ℕ := l.atomicRequestToCache.count .GETMATOMICST

/-- GETMATOMICEN messages in flight to the L1. -/
def L1.ends : ℕ := l.atomicRequestToCache.count .GETMATOMICEN

/-- The counter once all messages in flight have arrived. -/
def L1.level : ℤ := l.isBlocked + l.starts - l.ends

/-- The window as a number. -/
def L1.window : ℤ := if l.windowOpen then 1 else 0

/-- Every L1 sees the open windows of the others. -/
def Line.Balanced (s : Line n β) : Prop :=
  ∀ c, (s.cores c).level + (s.cores c).window = ∑ d, (s.cores d).window

/-! ## Transitions -/

/-- The states of a line with an open window. -/
def CacheState.lockWindow : CacheState → ℤ
  | SM_WL | IM_WL | IM_DL | M_L => 1
  | _ => 0

/-- The window can be read off the state. -/
theorem L1.Ok.window_eq {l : L1 n β} (h : l.Ok) : l.window = l.state.lockWindow := by
  have hb := h.blocked
  have hstate : l.state.lockWindow =
      if l.state = .M_L ∨ l.state.pending = .lockedRead then 1 else 0 := by
    cases l.state <;> rfl
  have hopen : l.windowOpen = true ↔ l.state = .M_L ∨ l.state.pending = .lockedRead := by
    by_cases hp : l.state.pending = .none
    · -- an idle line: no request has been popped
      have hreq := h.request
      unfold L1.RequestOk at hreq
      cases hr : l.request with
      | none => simp [L1.windowOpen, hr, hb, hp]
      | some r =>
        have hq : l.inMandatoryQueue = true := by
          by_contra hq
          simp only [hr, hq, if_false] at hreq
          exact hreq.2 hp
        simp [L1.windowOpen, hq, hb, hp]
    · obtain ⟨hq, r, hr, hk⟩ := h.exists_request hp
      rw [← hk, RubyRequestType.kind_eq_lockedRead]
      simp [L1.windowOpen, hq, hr, hb]
  simp only [L1.window, hstate, hopen]

/-- The L1 announces exactly the change of its window, and keeps its own level. -/
def Firing.Announces (x : Firing n β) : Prop :=
  x.line.level = l.level ∧
    (x.atomics.count .GETMATOMICST : ℤ) - x.atomics.count .GETMATOMICEN =
      x.line.state.lockWindow - l.state.lockWindow

section Transitions

variable {c : Fin n} {l : L1 n β} {x : Firing n β}

theorem Msi.Processor.announces [Inhabited β] {r : SequencerRequest β}
    (hx : Msi.Processor c l r x) : x.Announces l := by
  cases hx with
  | stall hs hx | readHit hs hk hx | writeHit hs hk hx =>
    subst hx
    exact ⟨rfl, by simp⟩
  | readMiss t hs hk ht hx | writeMiss hs hk hx | lockedMiss hs hk hx | upgrade hs hk hx
  | lockedUpgrade hs hk hx | lockedHit hs hk hx | unlock hs hk hx =>
    subst hx
    exact ⟨rfl, by rw [hs]; rfl⟩

theorem Msi.Replacement.announces (hx : Msi.Replacement l x) : x.Announces l := by
  cases hx with
  | stall hs hx =>
    subst hx
    exact ⟨rfl, by simp⟩
  | evictShared hs hx | writeBack hs hx =>
    subst hx
    exact ⟨rfl, by rw [hs]; rfl⟩

/-- Seeing a request of another core neither opens nor closes a window. -/
theorem msiSnooped_lockWindow : ∀ (s : CacheState) (t : CoherenceRequestType), s.live = true →
    (msiSnooped s t).lockWindow = s.lockWindow := by
  intro s t hl
  cases t <;> revert s <;> decide

theorem Msi.Snoop.announces {i : ℕ} {m : RequestMsg n} (hx : Msi.Snoop l i m x) (h : l.Ok) :
    x.Announces l := by
  have hw := msiSnooped_lockWindow l.state m.type h.live
  cases hx with
  | stall hs hx =>
    subst hx
    exact ⟨rfl, by simp⟩
  | writeBack hs hx =>
    subst hx
    rw [hs] at hw
    exact ⟨rfl, by simp [hw, hs]⟩
  | invalidate hs _ hx =>
    subst hx
    exact ⟨rfl, by rw [hs]; rfl⟩
  | pop hs hM hS hx =>
    subst hx
    exact ⟨rfl, by simp [hw]⟩

theorem Msi.Own.announces {i : ℕ} {m : RequestMsg n} (hx : Msi.Own c l i m x) : x.Announces l := by
  cases hx with
  | rewrite hs ht hx =>
    subst hx
    exact ⟨rfl, by simp⟩
  | read hs ht hx | write hs ht hx | share r hs ht hr hk hx | modify r hs ht hr hk hx
  | upgrade r hs ht hr hk hx | lockedUpgrade hs ht hr hx | lostUpgrade hs ht hx
  | lostLockedUpgrade hs ht hx =>
    subst hx
    exact ⟨rfl, by rw [hs]; rfl⟩

theorem Msi.OwnWB.announces {i : ℕ} (hx : Msi.OwnWB l i x) : x.Announces l := by
  cases hx with
  | invalidate hs hx | share hs hx =>
    subst hx
    exact ⟨rfl, by rw [hs]; rfl⟩

/-- Data does not open a window: `IM_DL` already counts as one. -/
theorem Msi.Response.announces {i : ℕ} {m : ResponseMsg β} (hx : Msi.Response c l i m x) :
    x.Announces l := by
  cases hx with
  | ignore hs hx =>
    subst hx
    exact ⟨rfl, by simp⟩
  | share r hs hr hk hx | readOnce r hs hr hk hx | modify r hs hr hk hx | lock hs hr hx =>
    subst hx
    exact ⟨rfl, by rw [hs]; rfl⟩
  | early s' hs hx | modifyOnce r s' hs hr hk hx =>
    subst hx
    obtain ⟨hs, rfl⟩ | ⟨hs, rfl⟩ := hs <;> exact ⟨rfl, by rw [hs]; rfl⟩

end Transitions

/-! ## The balance of a line -/

section Line

variable {s t : Line n β} {c : Fin n} {k : Label n β}

/-- A step that changes neither levels nor windows. -/
theorem Line.Balanced.congr (h : s.Balanced)
    (ht : ∀ d, (t.cores d).level = (s.cores d).level ∧ (t.cores d).window = (s.cores d).window) :
    t.Balanced := by
  intro d
  rw [(ht d).1, (ht d).2, h d]
  exact Finset.sum_congr rfl fun e _ => (ht e).2.symm

/-- New atomic messages in flight raise or lower the level. -/
theorem L1.level_append (l : L1 n β) (as : List AtomicRequestType) :
    L1.level { l with atomicRequestToCache := l.atomicRequestToCache ++ as } =
      l.level + (as.count .GETMATOMICST - as.count .GETMATOMICEN) := by
  simp only [L1.level, L1.starts, L1.ends, List.count_append]
  omega

/-- A transition of `c` that announces the change of its window. -/
theorem Line.Balanced.commit {x : Firing n β} (h : s.Balanced) (hok : (s.cores c).Ok)
    (hok' : x.line.Ok) (hx : x.Announces (s.cores c)) : (s.commit c x).Balanced := by
  obtain ⟨hlevel, hann⟩ := hx
  rw [← hok.window_eq, ← hok'.window_eq] at hann
  have hself : (s.commit c x).cores c = x.line := by simp [Line.commit]
  have hother : ∀ d, d ≠ c → (s.commit c x).cores d = { s.cores d with
      atomicRequestToCache := (s.cores d).atomicRequestToCache ++ x.atomics } := by
    intro d hd
    simp [Line.commit, hd]
  have hsum := Finset.sum_change (f := fun d => (s.cores d).window)
    (g := fun d => ((s.commit c x).cores d).window) c fun d hd => by
      rw [hother d hd]
      rfl
  intro d
  rw [hsum, ← h d]
  rcases eq_or_ne d c with rfl | hd
  · rw [hself, hlevel]
    ring
  · rw [hother d hd, L1.level_append, hann, hself]
    change _ + (s.cores d).window = _
    ring

/-- A received message moves from the buffer to the counter. -/
theorem L1.level_receive (l : L1 n β) {i : ℕ} {a : AtomicRequestType}
    (ha : l.atomicRequestToCache[i]? = some a) :
    L1.level { l with
      isBlocked := l.isBlocked + (if a = .GETMATOMICST then 1 else -1)
      atomicRequestToCache := l.atomicRequestToCache.eraseIdx i } = l.level := by
  have h₁ := List.countP_eraseIdx_add (· == AtomicRequestType.GETMATOMICST) ha
  have h₂ := List.countP_eraseIdx_add (· == AtomicRequestType.GETMATOMICEN) ha
  simp only [L1.level, L1.starts, L1.ends, List.count]
  cases a <;> simp at h₁ h₂ ⊢ <;> omega

variable [Inhabited β]

/-- **Every step keeps the balance.** -/
theorem Line.Balanced.step (h : s.Balanced) (ha : s.Accounted False) (hx : Msi.Step s k t) :
    t.Balanced := by
  have hok : ∀ c, (s.cores c).Ok := fun c => (ha.core c).ok
  cases hx with
  | issue c r hr hb =>
    refine h.congr fun d => ?_
    rcases eq_or_ne d c with rfl | hd
    · simp [Line.setCore, L1.level, L1.window, L1.windowOpen, L1.starts, L1.ends, hr]
    · simp [Line.setCore, hd]
  | processor c r x hr hq hx => exact h.commit (hok c) (hx.ok (hok c) hr) hx.announces
  | replacement c x hr hx => exact h.commit (hok c) (hx.ok (hok c) hr) hx.announces
  | order c i q hq =>
    refine h.congr fun d => ?_
    rcases eq_or_ne d c with rfl | hd
    · simp only [Line.ordered, Line.broadcast, Line.setCore, update_self]
      exact ⟨rfl, rfl⟩
    · simp only [Line.ordered, Line.broadcast, Line.setCore, update_of_ne hd]
      exact ⟨rfl, rfl⟩
  | orderWB c hq =>
    refine h.congr fun d => ?_
    rcases eq_or_ne d c with rfl | hd
    · simp only [Line.orderedWB, Line.broadcastWB, Line.setCore, update_self]
      exact ⟨rfl, rfl⟩
    · simp only [Line.orderedWB, Line.broadcastWB, Line.setCore, update_of_ne hd]
      exact ⟨rfl, rfl⟩
  | snoop c i m x hm hc hx => exact h.commit (hok c) (hx.ok (hok c)) (hx.announces (hok c))
  | own c i m x hm hc hx => exact h.commit (hok c) (hx.ok (hok c)) hx.announces
  | snoopWB c i m hm hc =>
    refine h.commit (hok c) ((hok c).snoopWB i _) ⟨rfl, ?_⟩
    simp [msiSnooped_lockWindow _ .PUTM (hok c).live]
  | ownWB c i m x hm hc hx => exact h.commit (hok c) (hx.ok (hok c)) hx.announces
  | response c i m x hm hx => exact h.commit (hok c) (hx.ok (hok c)) hx.announces
  | atomic c i a hm =>
    exact h.commit (hok c) { hok c with } ⟨L1.level_receive _ hm, by simp⟩
  | wakeUp c =>
    refine h.congr fun d => ?_
    rcases eq_or_ne d c with rfl | hd
    · simp only [Line.wakeUp, Line.setCore, update_self]
      exact ⟨rfl, rfl⟩
    · simp [Line.wakeUp, Line.setCore, hd]
  | dirRequest i m x hm hx | dirPutm i m x hm ho hx | dirResponse i q b hm hs
  | dirMemoryData q b s' hm hs | dirMemoryAck hm | dirPutmStale i m hm ho | memory d hd =>
    exact h.congr fun d => ⟨rfl, rfl⟩

theorem Line.balanced_init (b : β) : (Line.init n b).Balanced := by
  intro c
  simp [Line.init, L1.level, L1.window, L1.windowOpen, L1.starts, L1.ends]

/-- Every reachable line is balanced. -/
theorem Line.balanced_of_runs {b : β} {ls : List (Label n β)} {ok : Line n β → Label n β → Prop}
    (h : Runs (Within (Line.step msi) ok) (Line.init n b) ls s) : s.Balanced := by
  refine (h.invariant (P := fun s => s.Accounted False ∧ s.Balanced) ?_
    ⟨Line.accounted_init b, Line.balanced_init b⟩).2
  rintro s k t ⟨ha, hs⟩ ⟨-, hk⟩
  have hx := ha.cases hk
  exact ⟨ha.step False.elim hx, hs.step ha hx⟩

end Line

/-! ## The counter of a controller -/

section Machine

variable {α : Type} [Fintype α] {s : Machine n α β}

/-- Levels add up to the number of open windows of other cores. -/
theorem Machine.sum_level (h : ∀ a, (s.lines a).Balanced) (c : Fin n) :
    ∑ a, (s.l1 a c).level =
      (Finset.univ.filter fun p : Fin n × α =>
        p.1 ≠ c ∧ (s.l1 p.2 p.1).windowOpen = true).card := by
  have hlevel : ∀ a, (s.l1 a c).level = ∑ d, (s.l1 a d).window - (s.l1 a c).window := by
    intro a
    have := h a c
    simp only [Machine.l1]
    omega
  -- the windows of `c` itself do not count
  have hchange := Finset.sum_change (f := fun d => ∑ a, (s.l1 a d).window)
    (g := fun d => ∑ a, if d ≠ c ∧ (s.l1 a d).windowOpen = true then (1 : ℤ) else 0) c
    fun d hd => by simp [hd, L1.window]
  calc ∑ a, (s.l1 a c).level
      = ∑ d, ∑ a, (s.l1 a d).window - ∑ a, (s.l1 a c).window := by
        rw [Finset.sum_comm, ← Finset.sum_sub_distrib]
        exact Finset.sum_congr rfl fun a _ => hlevel a
    _ = ∑ d, ∑ a, (if d ≠ c ∧ (s.l1 a d).windowOpen = true then (1 : ℤ) else 0) := by
        rw [hchange]
        simp [sub_eq_add_neg]
    _ = _ := by rw [Finset.natCast_card_filter, Fintype.sum_prod_type]

variable [DecidableEq α] [Inhabited β]

/-- **The blocking counter.**  At every point and for every L1, the counter plus the
GETMATOMICST and minus the GETMATOMICEN messages in flight is the number of windows that the
other cores have open; so without open windows and messages in flight the counter is 0 and the
mandatory queue is open again. -/
theorem blocking_counter {mem : α → β} {ks : List (α × Label n β)}
    (h : Runs (Within (Machine.step (Line.step msi)) (Machine.Each Anytime))
      (Machine.init n mem) ks s) :
    (∀ c, s.isBlocked c + ∑ a, ((s.l1 a c).starts : ℤ) - ∑ a, ((s.l1 a c).ends : ℤ) =
      (Finset.univ.filter fun p : Fin n × α =>
        p.1 ≠ c ∧ (s.l1 p.2 p.1).windowOpen = true).card) ∧
    ((∀ a d, (s.l1 a d).windowOpen = false ∧ (s.l1 a d).atomicRequestToCache = []) →
      ∀ c, s.isBlocked c = 0 ∧ ∀ a, s.Allows a (.mandatory c)) := by
  have hs : ∀ a, (s.lines a).Balanced := by
    intro a
    obtain ⟨ls, hls⟩ := Machine.runs_line h a
    exact Line.balanced_of_runs hls
  have hcount : ∀ c, s.isBlocked c + ∑ a, ((s.l1 a c).starts : ℤ) - ∑ a, ((s.l1 a c).ends : ℤ) =
      (Finset.univ.filter fun p : Fin n × α =>
        p.1 ≠ c ∧ (s.l1 p.2 p.1).windowOpen = true).card := by
    intro c
    rw [← Machine.sum_level hs c, Machine.isBlocked, ← Finset.sum_add_distrib,
      ← Finset.sum_sub_distrib]
    rfl
  refine ⟨hcount, fun hquiet c => ?_⟩
  have hzero : s.isBlocked c = 0 := by
    have hc := hcount c
    simpa [L1.starts, L1.ends, hquiet] using hc
  exact ⟨hzero, fun a => .inl hzero⟩

/-- Core 0 opens a window and core 1 has received its message. -/
theorem blocking_counter_one_window :
    ∃ s : Machine 2 Unit ℕ,
      Runs (Within (Machine.step (Line.step msi)) (Machine.Each Anytime)) (Machine.init 2 fun _ => 0)
        [((), .issue 0 ⟨.Locked_RMW_Read, id⟩), ((), .mandatory 0), ((), .atomic 1 0)] s ∧
      s.isBlocked 1 = 1 ∧
      s.isBlocked 1 + ∑ a, ((s.l1 a 1).starts : ℤ) - ∑ a, ((s.l1 a 1).ends : ℤ) =
        (Finset.univ.filter fun p : Fin 2 × Unit =>
          p.1 ≠ 1 ∧ (s.l1 p.2 p.1).windowOpen = true).card := by
  refine exists_runs_and_of_execWithin (by decide +kernel) ?_
  intro s hs _
  exact (blocking_counter hs).1 1

/-- Core 0 opens a window on one line and, between its read and its write, a second window on
another line.  Both messages have arrived at core 1, whose counter is 2. -/
theorem blocking_counter_two_windows :
    ∃ s : Machine 2 Bool ℕ,
      Runs (Within (Machine.step (Line.step msi)) (Machine.Each Line.InOrder))
        (Machine.init 2 fun _ => 0)
        [(false, .issue 0 ⟨.Locked_RMW_Read, id⟩), (false, .mandatory 0), (false, .order 0 0),
          (false, .request 0 0), (false, .request 1 0), (false, .dirRequest 0), (false, .memory),
          (false, .dirMemory), (false, .response 0 0), (true, .issue 0 ⟨.Locked_RMW_Read, id⟩),
          (true, .mandatory 0), (false, .atomic 1 0), (true, .atomic 1 0)] s ∧
      s.isBlocked 1 = 2 ∧ (∀ a, (s.l1 a 1).atomicRequestToCache = []) ∧
      (Finset.univ.filter fun d : Fin 2 => d ≠ 1 ∧ ∃ a, (s.l1 a d).windowOpen = true).card = 1 :=
  exists_runs_of_execWithin (by decide +kernel)

end Machine
