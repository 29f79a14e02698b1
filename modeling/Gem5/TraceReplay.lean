/-
# Replaying a trace with the Ruby tester

In `TRACE` mode `CheckTable` (`src/cpu/testers/rubytest/CheckTable.cc`) has a
check for every line of the trace and every core, and an index per core.
`RubyTester::wakeup` issues the operation at the index of each core when its
arrival time has come, and `hitCallback` moves the index of the core on and
shifts the arrival time of its next operation.

`isEnd` compares the index of core 0 with the last line, so the run is declared
finished when core 0 has still to complete that line, whatever the other cores
have done.  And when another core has completed the trace, its index is past the
end at the next wakeup (`trace_ends_too_early`).  Until one of the two happens,
every core issues the operations in the order of the trace, each of them once and
not before its arrival time (`trace_replay_in_order`).

The eight copies of each vector are one function of the core, `.at` throws, and
the schedules are 32 bits wide.  The values of the checks and the random choices
of the other mode are left out; whether a port accepts a request, and what
`initiateFlush` picks, are inputs of `wakeup`.

* `TraceTester` — the indices, the schedules and the checks, with what was sent and answered.
-/
import Gem5.TransitionSystem
import Mathlib

open Function

/-! ## The tester -/

/-- A line of the trace. -/
structure TraceLine where
  addr : ℕ
  isRead : Bool
  memSchedule : ℕ

/-- The parameters of the tester, and the trace. -/
structure TraceConfig where
  trace : List TraceLine
  numCpus : ℕ
  checkFlush : Bool := false
  checksToComplete : ℕ

/-- The states of a check that occur with a trace. -/
inductive TesterStatus
  | idle
  | actionPending
  deriving DecidableEq

/-- The part of `CheckTable` that belongs to one core. -/
structure TraceCore where
  vindex : ℕ := 0
  prevVindex : ℤ := -1
  memSchedule : List ℕ
  status : ℕ → TesterStatus := fun _ => .idle

inductive TesterCmd
  | readReq
  | writeReq
  | flushReq
  deriving DecidableEq

/-- A request that a port has accepted. -/
structure SentRequest where
  addr : ℕ
  cmd : TesterCmd
  cycle : ℕ
  deriving DecidableEq

/-- The tester.  For each processor there are the requests that it has sent, the cycles of the
answers, and the addresses that are still to be answered. -/
structure TraceTester where
  cores : ℕ → TraceCore
  checksCompleted : ℕ := 0
  finished : Bool := false
  sent : ℕ → List SentRequest := fun _ => []
  answered : ℕ → List ℕ := fun _ => []
  outstanding : ℕ → List ℕ := fun _ => []

/-- `MAX_NPROC`. -/
def maxNproc : ℕ := 8

/-- `std::vector::at`. -/
def vectorAt {α : Type} (l : List α) (i : ℕ) : Except Abort α :=
  match l[i]? with
  | some a => .ok a
  | none => .error .assertion

namespace TraceConfig

/-- `OrigMemSchedule`: the arrival times as they are stored. -/
def origMemSchedule (cfg : TraceConfig) : List ℕ := cfg.trace.map (·.memSchedule % 2 ^ 32)

/-- The line whose checks are in `m_vec_lookup_map` under an address: the last one. -/
def lookupLine (cfg : TraceConfig) (addr : ℕ) : Option ℕ :=
  (List.range cfg.trace.length).reverse.find? fun k => (cfg.trace[k]?.map (·.addr)) == some addr

def cmdOf (isRead : Bool) : TesterCmd := if isRead then .readReq else .writeReq

end TraceConfig

namespace TraceTester

variable (cfg : TraceConfig)

def start : TraceTester := { cores := fun _ => { memSchedule := cfg.origMemSchedule } }

variable (t : TraceTester)

def setCore (i : ℕ) (c : TraceCore) : TraceTester :=
  { t with cores := Function.update t.cores i c }

/-- A port accepts a request. -/
def send (i : ℕ) (r : SentRequest) : TraceTester :=
  { t with
    sent := Function.update t.sent i (t.sent i ++ [r])
    outstanding := Function.update t.outstanding i (t.outstanding i ++ [r.addr]) }

/-- `getOrderedCheck`: the line of the next check, or null for a core that has no vector. -/
def getOrderedCheck (i : ℕ) : Except Abort (Option ℕ) :=
  if maxNproc ≤ i then .ok none
  else do
    let _ ← vectorAt cfg.trace (t.cores i).vindex
    pure (some (t.cores i).vindex)

def getNextTS (i : ℕ) : Except Abort ℕ :=
  if maxNproc ≤ i then .ok 0 else vectorAt (t.cores i).memSchedule (t.cores i).vindex

def getOp (i : ℕ) : Except Abort Bool :=
  if maxNproc ≤ i then .ok false else vectorAt (cfg.trace.map (·.isRead)) (t.cores i).vindex

def prevReqComplete (i : ℕ) : Bool := (t.cores i).prevVindex != (t.cores i).vindex

def isEnd : Bool := (t.cores 0).vindex + 1 == cfg.trace.length

/-- `Check::initiateFlush`, if the tester checks flushes and has drawn one. -/
def initiateFlush (flush : Option ℕ) (addr cycle : ℕ) : TraceTester :=
  match flush with
  | some p => if cfg.checkFlush then t.send p ⟨addr, .flushReq, cycle⟩ else t
  | none => t

/-- `Check::initiate` for the check of line `k`. -/
def initiate (i k : ℕ) (isRead : Bool) (cycle : ℕ) (accepted : Bool)
    (flush : Option ℕ) : Except Abort TraceTester := do
  let line ← vectorAt cfg.trace k
  let t := t.initiateFlush cfg flush line.addr cycle
  let c := t.cores i
  if c.status k = .idle ∧ accepted then
    pure ((t.send i ⟨line.addr, TraceConfig.cmdOf isRead, cycle⟩).setCore i
      { c with status := Function.update c.status k .actionPending })
  else pure t

/-- The body of the loop of `wakeup` once the check is known. -/
def issueCheck (cycle : ℕ) (accept : ℕ → Bool) (flush : ℕ → Option ℕ) (t : TraceTester)
    (i k : ℕ) : Except Abort TraceTester := do
  let next ← t.getNextTS i
  let isRead ← t.getOp cfg i
  if next ≤ cycle ∧ t.prevReqComplete i then t.initiate cfg i k isRead cycle (accept i) (flush i)
  else .ok t

/-- The body of the loop of `wakeup`. -/
def issueNext (cycle : ℕ) (accept : ℕ → Bool) (flush : ℕ → Option ℕ) (t : TraceTester)
    (i : ℕ) : Except Abort TraceTester := do
  let check ← t.getOrderedCheck cfg i
  match check with
  | some k => issueCheck cfg cycle accept flush t i k
  | none => .ok t

/-- `wakeup`.  `exitSimLoop` returns, so that the loop is run in any case. -/
def wakeup (cycle : ℕ) (accept : ℕ → Bool) (flush : ℕ → Option ℕ) :
    Except Abort TraceTester :=
  if t.checksCompleted < cfg.checksToComplete then
    (List.range cfg.numCpus).foldlM (issueNext cfg cycle accept flush)
      { t with finished := t.finished || t.isEnd cfg }
  else .ok { t with finished := true }

/-- The arrival time that `changeNextArrivalTime` stores for the operation after line `k`. -/
def shiftedArrival (k cycle : ℕ) : Except Abort ℕ := do
  let next ← vectorAt cfg.origMemSchedule (k + 1)
  let this ← vectorAt cfg.origMemSchedule k
  pure (((next + 2 ^ 32 - this) % 2 ^ 32 + cycle) % 2 ^ 32)

def changeNextArrivalTime (c : TraceCore) (cycle : ℕ) : Except Abort TraceCore :=
  if c.vindex + 1 < c.memSchedule.length then do
    let arrival ← shiftedArrival cfg c.vindex cycle
    pure { c with memSchedule := c.memSchedule.set (c.vindex + 1) arrival }
  else .ok c

/-- `getCheck(address, proc)`, which must not be null. -/
def getCheck (proc addr : ℕ) : Except Abort ℕ :=
  match cfg.lookupLine addr with
  | some k => if proc < maxNproc then .ok k else .error .assertion
  | none => .error .assertion

/-- `hitCallback`. -/
def hitCallback (proc addr cycle : ℕ) : Except Abort TraceTester := do
  let k ← getCheck cfg proc addr
  let c := t.cores proc
  -- `performCallback`, then `updatePrevindex`
  let c := { c with status := Function.update c.status k .idle, prevVindex := c.vindex }
  let c ← changeNextArrivalTime cfg c cycle
  pure { t.setCore proc { c with vindex := c.vindex + 1 } with
    checksCompleted := t.checksCompleted + 1
    answered := Function.update t.answered proc (t.answered proc ++ [cycle])
    outstanding := Function.update t.outstanding proc ((t.outstanding proc).erase addr) }

end TraceTester

inductive TesterOp
  | wakeup (cycle : ℕ) (accept : ℕ → Bool) (flush : ℕ → Option ℕ)
  | hitCallback (proc addr cycle : ℕ)

namespace TraceTester

variable (cfg : TraceConfig)

def step (t : TraceTester) : TesterOp → Except Abort TraceTester
  | .wakeup cycle accept flush => t.wakeup cfg cycle accept flush
  | .hitCallback proc addr cycle => t.hitCallback cfg proc addr cycle

/-- Only what is outstanding is answered. -/
def Answers (t : TraceTester) : TesterOp → Prop
  | .hitCallback proc addr _ => addr ∈ t.outstanding proc
  | .wakeup _ _ _ => True

/-- **The tester wakes up when every core still has an operation to complete**, and core 0 is not at
the last one.  It does not flush. -/
def Replaying (t : TraceTester) : TesterOp → Prop
  | .hitCallback proc addr _ => addr ∈ t.outstanding proc
  | .wakeup _ _ _ => cfg.checkFlush = false ∧ t.checksCompleted < cfg.checksToComplete ∧
      (t.cores 0).vindex + 1 ≠ cfg.trace.length ∧
      ∀ i < cfg.numCpus, (t.cores i).vindex < cfg.trace.length

instance (t : TraceTester) : (op : TesterOp) → Decidable (t.Answers op)
  | .hitCallback proc addr _ => inferInstanceAs (Decidable (addr ∈ t.outstanding proc))
  | .wakeup _ _ _ => inferInstanceAs (Decidable True)

instance (t : TraceTester) : (op : TesterOp) → Decidable (t.Replaying cfg op)
  | .hitCallback proc addr _ => inferInstanceAs (Decidable (addr ∈ t.outstanding proc))
  | .wakeup _ _ _ => inferInstanceAs (Decidable (_ ∧ _ ∧ _ ∧ ∀ i < cfg.numCpus, _))

end TraceTester

/-! ## The order of the requests -/

/-- The arrival time of line `k`: the one of the trace, shifted by the answer to the line before. -/
def arrivalTime (cfg : TraceConfig) (answered : List ℕ) : ℕ → ℕ
  | 0 => cfg.origMemSchedule.getD 0 0
  | k + 1 => ((cfg.origMemSchedule.getD (k + 1) 0 + 2 ^ 32 - cfg.origMemSchedule.getD k 0) % 2 ^ 32 +
      answered.getD k 0) % 2 ^ 32

/-- **A core has issued the first operations of the trace**, each of them once, in order and not
before its arrival time. -/
structure InOrder (cfg : TraceConfig) (sent : List SentRequest) (answered : List ℕ) : Prop where
  length_le : sent.length ≤ cfg.trace.length
  requests : sent.map (fun r => (r.addr, r.cmd)) =
    (cfg.trace.take sent.length).map fun l => (l.addr, TraceConfig.cmdOf l.isRead)
  answered_le : answered.length ≤ sent.length
  le_answered : sent.length ≤ answered.length + 1
  arrival : ∀ k r, sent[k]? = some r → arrivalTime cfg answered k ≤ r.cycle

/-- The next operation is still to be issued, or it is the one that is outstanding. -/
inductive CorePhase (cfg : TraceConfig) (c : TraceCore) (sent : List SentRequest)
    (outstanding : List ℕ) : Prop
  | ready (hsent : sent.length = c.vindex) (hout : outstanding = [])
      (hstatus : c.status c.vindex = .idle)
  | waiting (line : TraceLine) (hline : cfg.trace[c.vindex]? = some line)
      (hsent : sent.length = c.vindex + 1) (hout : outstanding = [line.addr])
      (hstatus : c.status c.vindex = .actionPending)

/-- The part of the tester that belongs to one core. -/
structure CoreOk (cfg : TraceConfig) (c : TraceCore) (sent : List SentRequest)
    (answered outstanding : List ℕ) : Prop where
  inOrder : InOrder cfg sent answered
  vindex : c.vindex = answered.length
  prevVindex : c.prevVindex = (c.vindex : ℤ) - 1
  length : c.memSchedule.length = cfg.trace.length
  schedule : c.vindex < cfg.trace.length →
    c.memSchedule[c.vindex]? = some (arrivalTime cfg answered c.vindex)
  later : ∀ k, c.vindex < k → c.status k = .idle
  phase : CorePhase cfg c sent outstanding

section Core

variable {cfg : TraceConfig} {c : TraceCore} {sent : List SentRequest}
  {answered outstanding : List ℕ}

theorem getElem?_origMemSchedule {k : ℕ} (hk : k < cfg.trace.length) :
    cfg.origMemSchedule[k]? = some (cfg.origMemSchedule.getD k 0) := by
  have hlen : k < cfg.origMemSchedule.length := by simpa [TraceConfig.origMemSchedule] using hk
  rw [List.getD_eq_getElem?_getD, List.getElem?_eq_getElem hlen, Option.getD_some]

theorem coreOk_start (cfg : TraceConfig) :
    CoreOk cfg { memSchedule := cfg.origMemSchedule } [] [] [] where
  inOrder := ⟨Nat.zero_le _, rfl, le_refl _, Nat.zero_le _, by simp⟩
  vindex := rfl
  prevVindex := rfl
  length := by simp [TraceConfig.origMemSchedule]
  schedule h := getElem?_origMemSchedule h
  later _ _ := rfl
  phase := .ready rfl rfl rfl

/-- An answer to a later line does not change an arrival time. -/
theorem arrivalTime_append {k : ℕ} (hk : k ≤ answered.length) (l : List ℕ) :
    arrivalTime cfg (answered ++ l) k = arrivalTime cfg answered k := by
  cases k with
  | zero => rfl
  | succ k => rw [arrivalTime, arrivalTime, List.getD_append _ _ _ _ hk]

/-- **The next operation is issued.** -/
theorem CoreOk.issue (h : CoreOk cfg c sent answered outstanding) {line : TraceLine}
    (hline : cfg.trace[c.vindex]? = some line) (hsent : sent.length = c.vindex)
    (hout : outstanding = []) {cycle : ℕ} (harrival : arrivalTime cfg answered c.vindex ≤ cycle) :
    CoreOk cfg { c with status := update c.status c.vindex .actionPending }
      (sent ++ [⟨line.addr, TraceConfig.cmdOf line.isRead, cycle⟩]) answered
      (outstanding ++ [line.addr]) := by
  have hlt : c.vindex < cfg.trace.length := (List.getElem?_eq_some_iff.mp hline).1
  have hlen : (sent ++ [(⟨line.addr, TraceConfig.cmdOf line.isRead, cycle⟩ : SentRequest)]).length =
      c.vindex + 1 := by simp [hsent]
  refine ⟨⟨?_, ?_, ?_, ?_, ?_⟩, h.vindex, h.prevVindex, h.length, h.schedule, ?_, ?_⟩
  · rw [hlen]
    exact hlt
  · rw [hlen, List.take_add_one, hline, List.map_append, List.map_append, h.inOrder.requests, hsent]
    rfl
  · rw [hlen, h.vindex]
    exact Nat.le_succ _
  · rw [hlen, h.vindex]
  · intro k r hr
    rcases lt_trichotomy k sent.length with hk | hk | hk
    · rw [List.getElem?_append_left hk] at hr
      exact h.inOrder.arrival k r hr
    · subst hk
      rw [List.getElem?_concat_length] at hr
      cases hr
      rw [hsent]
      exact harrival
    · rw [List.getElem?_eq_none (by omega)] at hr
      cases hr
  · intro k hk
    dsimp only at hk ⊢
    rw [update_of_ne (by omega)]
    exact h.later k hk
  · exact .waiting line hline hlen (by rw [hout]; rfl) (update_self _ _ _)

/-- The new arrival time is the one of the next line. -/
theorem shiftedArrival_eq (hlen : c.vindex + 1 < cfg.trace.length)
    (hanswered : c.vindex = answered.length) (cycle : ℕ) :
    TraceTester.shiftedArrival cfg c.vindex cycle =
      .ok (arrivalTime cfg (answered ++ [cycle]) (c.vindex + 1)) := by
  have hlast : (answered ++ [cycle]).getD c.vindex 0 = cycle := by
    rw [hanswered, List.getD_eq_getElem?_getD, List.getElem?_concat_length, Option.getD_some]
  unfold TraceTester.shiftedArrival vectorAt
  rw [getElem?_origMemSchedule hlen, getElem?_origMemSchedule (Nat.lt_of_succ_lt hlen)]
  rw [arrivalTime, hlast]
  rfl

theorem changeNextArrivalTime_eq (hlen : c.memSchedule.length = cfg.trace.length)
    (hanswered : c.vindex = answered.length) (cycle : ℕ) :
    ∃ l, TraceTester.changeNextArrivalTime cfg c cycle = .ok { c with memSchedule := l } ∧
      l.length = cfg.trace.length ∧
      (c.vindex + 1 < cfg.trace.length →
        l[c.vindex + 1]? = some (arrivalTime cfg (answered ++ [cycle]) (c.vindex + 1))) := by
  unfold TraceTester.changeNextArrivalTime
  by_cases hlt : c.vindex + 1 < c.memSchedule.length
  · rw [if_pos hlt, shiftedArrival_eq (hlen ▸ hlt) hanswered cycle]
    refine ⟨_, rfl, by rw [List.length_set, hlen], fun _ => ?_⟩
    rw [List.getElem?_set_self hlt]
  · rw [if_neg hlt]
    exact ⟨c.memSchedule, rfl, hlen, fun h => absurd (hlen ▸ h) hlt⟩

/-- **The outstanding operation is answered**, whichever line of its address the check belongs
to. -/
theorem CoreOk.answer (h : CoreOk cfg c sent answered outstanding) {addr : ℕ}
    (haddr : addr ∈ outstanding) (q cycle : ℕ) :
    ∃ l, TraceTester.changeNextArrivalTime cfg { c with
          status := update c.status q .idle
          prevVindex := c.vindex } cycle =
        .ok { c with
          status := update c.status q .idle
          prevVindex := c.vindex
          memSchedule := l } ∧
      CoreOk cfg { c with
          status := update c.status q .idle
          prevVindex := c.vindex
          memSchedule := l
          vindex := c.vindex + 1 } sent (answered ++ [cycle]) (outstanding.erase addr) := by
  obtain ⟨l, hrun, hlen, hnext⟩ := changeNextArrivalTime_eq
    (c := { c with status := update c.status q .idle, prevVindex := c.vindex }) h.length
    h.vindex cycle
  refine ⟨l, hrun, ?_⟩
  have hidle : ∀ k, c.vindex < k → update c.status q .idle k = .idle := by
    intro k hk
    by_cases hkq : k = q
    · rw [hkq, update_self]
    · rw [update_of_ne hkq, h.later k hk]
  cases h.phase with
  | ready _ hout _ =>
    rw [hout] at haddr
    cases haddr
  | waiting line hline hsent hout _ =>
    have hout' : outstanding.erase addr = [] := by
      rw [hout] at haddr ⊢
      rw [List.mem_singleton.mp haddr, List.erase_cons_head]
    refine ⟨⟨h.inOrder.length_le, h.inOrder.requests, ?_, ?_, ?_⟩, ?_, ?_, hlen, hnext, ?_, ?_⟩
    · rw [List.length_append, ← h.vindex, hsent]
      exact le_refl _
    · rw [List.length_append, ← h.vindex, hsent]
      exact Nat.le_succ _
    · intro k r hr
      have hk : k < sent.length := (List.getElem?_eq_some_iff.mp hr).1
      rw [arrivalTime_append (by rw [← h.vindex]; omega)]
      exact h.inOrder.arrival k r hr
    · rw [List.length_append, ← h.vindex]
      rfl
    · push_cast
      ring
    · exact fun k hk => hidle k (Nat.lt_of_succ_lt hk)
    · exact .ready hsent hout' (hidle _ (Nat.lt_succ_self _))

end Core

/-! ## Runs -/

namespace TraceTester

variable {cfg : TraceConfig} {t : TraceTester}

/-- **The invariant.** -/
structure Ok (cfg : TraceConfig) (t : TraceTester) : Prop where
  core : ∀ i, CoreOk cfg (t.cores i) (t.sent i) (t.answered i) (t.outstanding i)
  none_outstanding : ∀ i, maxNproc ≤ i → t.outstanding i = []
  not_finished : t.finished = false

theorem ok_start (cfg : TraceConfig) : (start cfg).Ok cfg where
  core _ := coreOk_start cfg
  none_outstanding _ _ := rfl
  not_finished := rfl

theorem initiateFlush_off (hflush : cfg.checkFlush = false) (t : TraceTester) (flush : Option ℕ)
    (addr cycle : ℕ) : t.initiateFlush cfg flush addr cycle = t := by
  cases flush with
  | none => rfl
  | some p => simp [initiateFlush, hflush]

/-- One core is changed, and the others are as they were. -/
theorem Ok.update (h : t.Ok cfg) {i : ℕ} (hi : i < maxNproc) {c : TraceCore}
    {sent : List SentRequest} {outstanding : List ℕ}
    (hcore : CoreOk cfg c sent (t.answered i) outstanding) :
    Ok cfg { t with
      cores := update t.cores i c
      sent := update t.sent i sent
      outstanding := update t.outstanding i outstanding } := by
  refine ⟨fun j => ?_, fun j hj => ?_, h.not_finished⟩
  · rcases eq_or_ne j i with rfl | hji
    · simpa only [update_self] using hcore
    · simpa only [update_of_ne hji] using h.core j
  · dsimp only
    rw [update_of_ne (by omega)]
    exact h.none_outstanding j hj

/-- **One core of a wakeup** issues its next operation or leaves everything as it is. -/
theorem Ok.issueNext (h : t.Ok cfg) (hflush : cfg.checkFlush = false) (cycle : ℕ)
    (accept : ℕ → Bool) (flush : ℕ → Option ℕ) {i : ℕ}
    (hi : (t.cores i).vindex < cfg.trace.length) :
    ∃ t', issueNext cfg cycle accept flush t i = .ok t' ∧ t'.Ok cfg ∧
      ∀ j, (t'.cores j).vindex = (t.cores j).vindex := by
  obtain ⟨line, hline⟩ : ∃ line, cfg.trace[(t.cores i).vindex]? = some line :=
    ⟨_, List.getElem?_eq_getElem hi⟩
  have hcore := h.core i
  unfold TraceTester.issueNext getOrderedCheck
  by_cases hmax : maxNproc ≤ i
  · rw [if_pos hmax]
    exact ⟨t, rfl, h, fun _ => rfl⟩
  have hts : t.getNextTS i = .ok (arrivalTime cfg (t.answered i) (t.cores i).vindex) := by
    rw [getNextTS, if_neg hmax, vectorAt, hcore.schedule hi]
  have hop : t.getOp cfg i = .ok line.isRead := by
    rw [getOp, if_neg hmax, vectorAt, List.getElem?_map, hline]
    rfl
  have hprev : t.prevReqComplete i = true := by
    rw [prevReqComplete, hcore.prevVindex, bne_iff_ne]
    omega
  rw [if_neg hmax, vectorAt, hline]
  show ∃ t', issueCheck cfg cycle accept flush t i (t.cores i).vindex = .ok t' ∧ _
  unfold issueCheck
  rw [hts]
  dsimp only [bind, Except.bind]
  rw [hop]
  dsimp only
  by_cases hdue : arrivalTime cfg (t.answered i) (t.cores i).vindex ≤ cycle
  · rw [if_pos ⟨hdue, hprev⟩, initiate, vectorAt, hline]
    dsimp only [bind, Except.bind]
    rw [initiateFlush_off hflush]
    cases hcore.phase with
    | waiting _ _ _ _ hstatus =>
      rw [hstatus]
      exact ⟨t, rfl, h, fun _ => rfl⟩
    | ready hsent hout hstatus =>
      by_cases haccept : accept i = true
      · rw [if_pos ⟨hstatus, haccept⟩]
        refine ⟨_, rfl, h.update (by omega) (hcore.issue hline hsent hout hdue), ?_⟩
        intro j
        dsimp only [setCore, send]
        by_cases hji : j = i
        · rw [hji, update_self]
        · rw [update_of_ne hji]
      · rw [if_neg fun hand => haccept hand.2]
        exact ⟨t, rfl, h, fun _ => rfl⟩
  · rw [if_neg fun hand => hdue hand.1]
    exact ⟨t, rfl, h, fun _ => rfl⟩

theorem Ok.wakeup (h : t.Ok cfg) {cycle : ℕ} {accept : ℕ → Bool} {flush : ℕ → Option ℕ}
    (hready : t.Replaying cfg (.wakeup cycle accept flush)) :
    ∃ t', t.wakeup cfg cycle accept flush = .ok t' ∧ t'.Ok cfg := by
  obtain ⟨hflush, hchecks, hend, hcores⟩ := hready
  have hnot : (t.finished || t.isEnd cfg) = false := by
    rw [h.not_finished, isEnd]
    simpa using hend
  unfold TraceTester.wakeup
  rw [if_pos hchecks, hnot]
  obtain ⟨t', hrun, hok, -⟩ := exists_foldlM_eq_ok
    (P := fun u : TraceTester => u.Ok cfg ∧ ∀ i, (u.cores i).vindex = (t.cores i).vindex)
    (List.range cfg.numCpus) (f := TraceTester.issueNext cfg cycle accept flush) (by
      rintro u i hi ⟨hu, hsame⟩
      have hlt := hcores i (List.mem_range.mp hi)
      obtain ⟨u', hrun, hok, hsame'⟩ := hu.issueNext hflush cycle accept flush (hsame i ▸ hlt)
      exact ⟨u', hrun, hok, fun j => (hsame' j).trans (hsame j)⟩)
    { t with finished := false } ⟨⟨h.core, h.none_outstanding, rfl⟩, fun _ => rfl⟩
  exact ⟨t', hrun, hok⟩

/-- The checks of an address that is in the trace are found. -/
theorem getCheck_eq {proc : ℕ} (hproc : proc < maxNproc) {k : ℕ} {line : TraceLine}
    (hline : cfg.trace[k]? = some line) : ∃ q, getCheck cfg proc line.addr = .ok q := by
  have hfound : (cfg.lookupLine line.addr).isSome := by
    rw [TraceConfig.lookupLine, List.find?_isSome]
    refine ⟨k, ?_, by simp [hline]⟩
    rw [List.mem_reverse, List.mem_range]
    exact (List.getElem?_eq_some_iff.mp hline).1
  obtain ⟨q, hq⟩ := Option.isSome_iff_exists.mp hfound
  exact ⟨q, by rw [getCheck, hq]; exact if_pos hproc⟩

theorem Ok.hitCallback (h : t.Ok cfg) {proc addr cycle : ℕ} (haddr : addr ∈ t.outstanding proc) :
    ∃ t', t.hitCallback cfg proc addr cycle = .ok t' ∧ t'.Ok cfg := by
  have hproc : proc < maxNproc := by
    by_contra hle
    rw [h.none_outstanding proc (not_lt.mp hle)] at haddr
    cases haddr
  obtain ⟨line, hline, hout⟩ : ∃ line, cfg.trace[(t.cores proc).vindex]? = some line ∧
      t.outstanding proc = [line.addr] := by
    cases (h.core proc).phase with
    | ready _ hout _ =>
      rw [hout] at haddr
      cases haddr
    | waiting line hline _ hout _ => exact ⟨line, hline, hout⟩
  have heq : addr = line.addr := by simpa [hout] using haddr
  obtain ⟨q, hq⟩ := getCheck_eq hproc hline
  obtain ⟨l, hrun, hcore⟩ := (h.core proc).answer haddr q cycle
  unfold TraceTester.hitCallback
  rw [heq, hq]
  dsimp only [bind, Except.bind]
  rw [hrun]
  refine ⟨_, rfl, fun j => ?_, fun j hj => ?_, h.not_finished⟩
  · dsimp only [setCore]
    rcases eq_or_ne j proc with rfl | hji
    · simp only [update_self]
      rw [← heq]
      exact hcore
    · simpa only [update_of_ne hji] using h.core j
  · dsimp only [setCore]
    rw [update_of_ne (by omega)]
    exact h.none_outstanding j hj

theorem Ok.step (h : t.Ok cfg) {op : TesterOp} (hop : t.Replaying cfg op) :
    ∃ t', t.step cfg op = .ok t' ∧ t'.Ok cfg := by
  cases op with
  | wakeup cycle accept flush => exact h.wakeup hop
  | hitCallback proc addr cycle => exact h.hitCallback hop

/-- **A trace is replayed in order**: as long as the tester wakes up with an operation left for
every core and core 0 before the last one, nothing is read past the trace, each core issues the
first operations of the trace, once each, in order and not before their arrival times, and the run
is not declared finished. -/
theorem trace_replay_in_order {ops : List TesterOp}
    (hrun : Runs (Within (step cfg) (Replaying cfg)) (start cfg) ops t) :
    (∀ op, t.Replaying cfg op → ∃ t', t.step cfg op = .ok t') ∧ t.finished = false ∧
      ∀ core, InOrder cfg (t.sent core) (t.answered core) := by
  have hok : t.Ok cfg :=
    hrun.invariant_of_progress (fun _ _ hs hop => hs.step hop) (ok_start cfg)
  refine ⟨fun op hop => ?_, hok.not_finished, fun core => (hok.core core).inOrder⟩
  obtain ⟨t', ht', -⟩ := hok.step hop
  exact ⟨t', ht'⟩

/-- Two cores and three lines, of which the first and the last have one address.  The second
operation of core 1 waits until three cycles after the answer to its first one. -/
theorem trace_replay_in_order_two_cores :
    ∃ t, Runs (Within (step ⟨[⟨64, true, 1⟩, ⟨128, false, 4⟩, ⟨64, false, 6⟩], 2, false, 100⟩)
        (Replaying ⟨[⟨64, true, 1⟩, ⟨128, false, 4⟩, ⟨64, false, 6⟩], 2, false, 100⟩))
        (start ⟨[⟨64, true, 1⟩, ⟨128, false, 4⟩, ⟨64, false, 6⟩], 2, false, 100⟩)
        [.wakeup 1 (fun _ => true) (fun _ => none), .hitCallback 1 64 5,
          .wakeup 6 (fun _ => true) (fun _ => none), .wakeup 8 (fun _ => true) (fun _ => none),
          .hitCallback 0 64 9] t ∧
      (t.sent 1).map SentRequest.cycle = [1, 8] ∧ t.finished = false ∧
      InOrder ⟨[⟨64, true, 1⟩, ⟨128, false, 4⟩, ⟨64, false, 6⟩], 2, false, 100⟩ (t.sent 1)
        (t.answered 1) := by
  refine exists_runs_and_of_execWithin (by decide +kernel) ?_
  intro t ht _
  obtain ⟨-, hfinished, horder⟩ := trace_replay_in_order ht
  exact ⟨hfinished, horder 1⟩

/-- A trace of one line is declared finished at the first wakeup, with nothing answered.  With two
lines, core 1 has completed both while core 0 waits for its first answer, and the next wakeup reads
past the trace. -/
theorem trace_ends_too_early :
    (∃ t, Runs (Within (step ⟨[⟨64, true, 0⟩], 2, false, 100⟩) Answers)
        (start ⟨[⟨64, true, 0⟩], 2, false, 100⟩)
        [.wakeup 1 (fun _ => true) (fun _ => none)] t ∧
      t.finished = true ∧ t.answered 0 = []) ∧
    ∃ t, Runs (Within (step ⟨[⟨64, true, 0⟩, ⟨128, false, 0⟩], 2, false, 100⟩) Answers)
        (start ⟨[⟨64, true, 0⟩, ⟨128, false, 0⟩], 2, false, 100⟩)
        [.wakeup 1 (fun _ => true) (fun _ => none), .hitCallback 1 64 2,
          .wakeup 3 (fun _ => true) (fun _ => none), .hitCallback 1 128 4] t ∧
      t.finished = false ∧
      (t.step ⟨[⟨64, true, 0⟩, ⟨128, false, 0⟩], 2, false, 100⟩
        (.wakeup 5 (fun _ => true) (fun _ => none))).map (fun _ => ()) = .error .assertion :=
  ⟨exists_runs_of_execWithin (by decide +kernel), exists_runs_of_execWithin (by decide +kernel)⟩

end TraceTester
