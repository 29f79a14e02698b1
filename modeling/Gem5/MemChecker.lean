/-
# The memory checker

`MemChecker` (`src/mem/mem_checker.cc`) watches the reads and the writes of every
byte and says, when a read completes, whether its data is a value that the byte
can have had since the read started.  A `ByteTracker` holds the outstanding reads,
the completed ones, and the writes in clusters of overlapping writes; what is
older than the last entry completed before the first outstanding read is pruned.

The lists are kept here with the latest entry first, so that the backward scans of
the source run along the list, and the maps are lists ordered by serial.  The error
message is left out, and `chatty_assert` is an assertion.

A byte that is checked is one register.  Its histories are the calls, in their
order, with the points in between at which a write takes effect
(`Register.Allows`).  Calls with the same tick are where the checker goes wrong:
it takes a write that completes at the start tick of a read to precede the read,
and it asserts that a write started before the tick at which the read completes
(`checker_alarm_at_equal_ticks`).

* `WriteCluster`, `ByteTracker` — the checker of one byte.
* `inExpectedData`             — the scan through observations and write clusters.
* `Register`                   — the atomic register, by its history.
* `CheckedByte`                — the two together, with the alarm of the checker.
-/
import Gem5.TransitionSystem
import Mathlib

namespace MemChecker

/-! ## Transactions and write clusters -/

def serialInitial : ℕ := 0

def tickInitial : ℕ := 0

/-- `TICK_FUTURE`, the completion tick of a transaction in flight. -/
def tickFuture : ℕ := 2 ^ 64 - 1

def dataInitial : UInt8 := 0

structure Transaction where
  serial : ℕ
  start : ℕ
  complete : ℕ
  data : UInt8 := dataInitial
  deriving DecidableEq, Repr

/-- `insert` of a map keyed by the serial: an entry that is there stays. -/
def insertBySerial (t : Transaction) : List Transaction → List Transaction
  | [] => [t]
  | u :: l =>
    if t.serial < u.serial then t :: u :: l
    else if t.serial = u.serial then u :: l
    else u :: insertBySerial t l

/-- `find` of a map keyed by the serial. -/
def findSerial (serial : ℕ) (l : List Transaction) : Option Transaction :=
  l.find? fun t => t.serial = serial

/-- `erase` of a map keyed by the serial. -/
def eraseSerial (serial : ℕ) (l : List Transaction) : List Transaction :=
  l.filter fun t => t.serial ≠ serial

/-- The entry with the serial gets its completion tick. -/
def setComplete (serial complete : ℕ) (l : List Transaction) : List Transaction :=
  l.map fun t => if t.serial = serial then { t with complete } else t

/-- `--` of a `size_t`. -/
def decrement (n : ℕ) : ℕ :=
  if n = 0 then 2 ^ 64 - 1 else n - 1

structure WriteCluster where
  start : ℕ := tickFuture
  complete : ℕ := tickFuture
  completeMax : ℕ := tickInitial
  numIncomplete : ℕ := 0
  writes : List Transaction := []
  deriving DecidableEq, Repr

namespace WriteCluster

variable (c : WriteCluster)

def isComplete : Bool :=
  c.complete ≠ tickFuture

def startWrite (serial start : ℕ) (data : UInt8) :
    Except Abort WriteCluster :=
  -- the source can reopen a closed cluster further down, where this assertion rules it out
  if c.isComplete then .error .assertion
  else
    let opened := if c.start = tickFuture then start else c.start
    if opened ≤ start then
      .ok { c with
        start := opened
        numIncomplete := c.numIncomplete + 1
        writes := insertBySerial { serial, start, complete := tickFuture, data } c.writes }
    else .error .assertion

def completeWrite (serial complete : ℕ) : Except Abort WriteCluster :=
  match findSerial serial c.writes with
  | none => .ok c -- a warning only
  | some w =>
    if w.complete = tickFuture then
      let completeMax := if c.completeMax < complete then complete else c.completeMax
      let numIncomplete := decrement c.numIncomplete
      .ok { c with
        writes := setComplete serial complete c.writes
        completeMax
        numIncomplete
        complete := if numIncomplete = 0 then completeMax else c.complete }
    else .error .assertion

def abortWrite (serial : ℕ) : WriteCluster :=
  match findSerial serial c.writes with
  | none => c -- a warning only
  | some _ =>
    let writes := eraseSerial serial c.writes
    let numIncomplete := decrement c.numIncomplete
    { c with
      writes
      numIncomplete
      complete := if numIncomplete = 0 ∧ writes ≠ [] then c.completeMax else c.complete }

end WriteCluster

/-! ## The tracker of a byte -/

/-- The last entry of a list, latest first, that completed before the tick, or else the
oldest one, with the entries that are later than it.  The source asserts that there is one. -/
def lastCompletedTransaction {τ : Type} (complete : τ → ℕ) (before : ℕ) :
    List τ → Except Abort (List τ × τ)
  | [] => .error .assertion
  | [x] => .ok ([], x)
  | x :: y :: l =>
    if before ≤ complete x then
      (lastCompletedTransaction complete before (y :: l)).map fun p => (x :: p.1, p.2)
    else .ok ([], x)

/-- `erase` of everything older than the last completed entry. -/
def eraseOlder {τ : Type} (complete : τ → ℕ) (before : ℕ) (l : List τ) :
    Except Abort (List τ) :=
  (lastCompletedTransaction complete before l).map fun p => p.1 ++ [p.2]

structure ByteTracker where
  outstandingReads : List Transaction := []
  readObservations : List Transaction :=
    [{ serial := serialInitial, start := tickInitial, complete := tickInitial }]
  writeClusters : List WriteCluster := []
  deriving DecidableEq, Repr

/-- The local variables of the scan. -/
structure Scan where
  wcOverlap : Bool := true
  lastObsValid : Bool
  lastExpectedData : List UInt8 := []

/-- One write of the scan; `none` is a match, which ends it. -/
def scanWrite (lastObs : Transaction) (start : ℕ) (data : UInt8) (s : Scan)
    (write : Transaction) : Option Scan :=
  if write.complete < lastObs.start then some s
  else if write.data = data then none
  else
    let lastExpectedData := s.lastExpectedData ++ [write.data]
    if start < write.complete then some { s with lastExpectedData }
    else some
      { wcOverlap := false
        lastObsValid := s.lastObsValid && !decide (lastObs.complete < write.start)
        lastExpectedData }

/-- The scan goes on to the next older cluster while `wcOverlap` holds. -/
def scanClusters (lastObs : Transaction) (start : ℕ) (data : UInt8) (s : Scan) :
    List WriteCluster → Option Scan
  | [] => some s
  | c :: cs =>
    if s.wcOverlap then
      (c.writes.foldlM (scanWrite lastObs start data) s).bind fun s' =>
        scanClusters lastObs start data s' cs
    else some s

namespace ByteTracker

variable (t : ByteTracker)

def startRead (serial start : ℕ) : ByteTracker :=
  { t with
    outstandingReads :=
      insertBySerial { serial, start, complete := tickFuture } t.outstandingReads }

/-- The last value read before the tick. -/
def lastObservation (start : ℕ) : Except Abort Transaction :=
  (lastCompletedTransaction Transaction.complete start t.readObservations).map Prod.snd

/-- What is left when nothing has matched: no data was expected at all, which is the initial
state of the system. -/
def unmatched (lastObs : Transaction) (lastExpectedData : List UInt8) : Except Abort Bool :=
  if lastExpectedData = [] then
    if lastObs.complete = tickInitial then .ok true else .error .assertion
  else .ok false

/-- All writes overlap the read.  The oldest cluster is the last of the list. -/
def allOverlap (start complete : ℕ) : Except Abort Bool :=
  match t.writeClusters.getLast?, t.writeClusters.head? with
  | some oldest, some newest =>
    if oldest.start < complete ∧ start < newest.complete then .ok true else .error .assertion
  | _, _ => .error .undefined

/-- The end of `inExpectedData`, when the scan has found no match. -/
def afterScan (lastObs : Transaction) (start complete : ℕ) (data : UInt8) (s : Scan) :
    Except Abort Bool :=
  if s.lastObsValid then
    if lastObs.complete ≤ start then
      if lastObs.data = data then .ok true
      else unmatched lastObs (s.lastExpectedData ++ [lastObs.data])
    else .error .assertion
  else if t.writeClusters ≠ [] ∧ s.wcOverlap then t.allOverlap start complete
  else unmatched lastObs s.lastExpectedData

def inExpectedData (start complete : ℕ) (data : UInt8) : Except Abort Bool := do
  let lastObs ← t.lastObservation start
  match scanClusters lastObs start data
      { lastObsValid := decide (lastObs.complete ≠ tickInitial) } t.writeClusters with
  | none => .ok true
  | some s => t.afterScan lastObs start complete data s

/-- The start of the first outstanding read, or the current tick. -/
def pruneTick (curTick : ℕ) : ℕ :=
  match t.outstandingReads with
  | [] => curTick
  | r :: _ => r.start

def pruneTransactions (curTick : ℕ) : Except Abort ByteTracker := do
  let readObservations ←
    eraseOlder Transaction.complete (t.pruneTick curTick) t.readObservations
  if t.writeClusters = [] then .ok { t with readObservations }
  else do
    let writeClusters ← eraseOlder WriteCluster.complete (t.pruneTick curTick) t.writeClusters
    .ok { t with readObservations, writeClusters }

def completeRead (serial complete : ℕ) (data : UInt8) : Except Abort (Bool × ByteTracker) :=
  match findSerial serial t.outstandingReads with
  | none => .ok (true, t) -- a warning only
  | some r => do
    let t₁ := { t with outstandingReads := eraseSerial serial t.outstandingReads }
    let result ← t₁.inExpectedData r.start complete data
    let observation := { serial, start := r.start, complete, data }
    let t₂ := { t₁ with readObservations := observation :: t₁.readObservations }
    let t₃ ← t₂.pruneTransactions complete
    .ok (result, t₃)

/-- The latest cluster, a new one if it is complete, and the other clusters. -/
def getIncompleteWriteCluster : WriteCluster × List WriteCluster :=
  match t.writeClusters with
  | [] => ({}, [])
  | c :: cs => if c.isComplete then ({}, c :: cs) else (c, cs)

def startWrite (serial start : ℕ) (data : UInt8) : Except Abort ByteTracker := do
  let c ← t.getIncompleteWriteCluster.1.startWrite serial start data
  .ok { t with writeClusters := c :: t.getIncompleteWriteCluster.2 }

def completeWrite (serial complete : ℕ) : Except Abort ByteTracker := do
  let c ← t.getIncompleteWriteCluster.1.completeWrite serial complete
  pruneTransactions { t with writeClusters := c :: t.getIncompleteWriteCluster.2 } complete

def abortWrite (serial : ℕ) : ByteTracker :=
  { t with
    writeClusters :=
      t.getIncompleteWriteCluster.1.abortWrite serial :: t.getIncompleteWriteCluster.2 }

end ByteTracker

/-! ## The register and its histories -/

/-- The calls that concern the byte, the points at which a write takes effect, and the start
of a transaction that does not touch the byte. -/
inductive CheckerEvent
  | startRead (tick : ℕ)
  | completeRead (serial tick : ℕ) (data : UInt8)
  | startWrite (tick : ℕ) (data : UInt8)
  | completeWrite (serial tick : ℕ)
  | abortWrite (serial : ℕ)
  | effect (serial : ℕ)
  | startOther
  deriving DecidableEq, Repr

/-- An atomic register: its value, the data of the writes in flight, the writes that took
effect, and for every read in flight the values since its start. -/
structure Register where
  value : UInt8
  written : ℕ → Option UInt8 := fun _ => none
  taken : ℕ → Bool := fun _ => false
  seen : ℕ → Option (List UInt8) := fun _ => none

namespace Register

/-- The write takes effect. -/
def takeEffect (reg : Register) (serial : ℕ) (data : UInt8) : Register :=
  { reg with
    value := data
    taken := Function.update reg.taken serial true
    seen := fun r => (reg.seen r).map (data :: ·) }

/-- A transaction that starts has the serial `next`. -/
def after (reg : Register) (next : ℕ) : CheckerEvent → Register
  | .startRead _ => { reg with seen := Function.update reg.seen next (some [reg.value]) }
  | .completeRead serial _ _ => { reg with seen := Function.update reg.seen serial none }
  | .startWrite _ data => { reg with written := Function.update reg.written next (some data) }
  | .completeWrite serial _ => { reg with written := Function.update reg.written serial none }
  | .abortWrite serial => { reg with written := Function.update reg.written serial none }
  | .effect serial =>
    match reg.written serial with
    | some data => reg.takeEffect serial data
    | none => reg
  | .startOther => reg

/-- What a linearizable history allows: a read returns a value in effect since its start, a
completed write has taken effect, an aborted one has not, and none does so twice. -/
def Allows (reg : Register) : CheckerEvent → Prop
  | .completeRead serial _ data => ∃ vs ∈ reg.seen serial, data ∈ vs
  | .completeWrite serial _ => (reg.written serial).isSome ∧ reg.taken serial
  | .abortWrite serial => (reg.written serial).isSome ∧ ¬ reg.taken serial
  | .effect serial => (reg.written serial).isSome ∧ ¬ reg.taken serial
  | _ => True

instance (reg : Register) (e : CheckerEvent) : Decidable (reg.Allows e) := by
  cases e <;> unfold Allows <;> infer_instance

end Register

/-! ## The byte under the checker -/

structure CheckedByte where
  tracker : ByteTracker := {}
  nextSerial : ℕ := serialInitial
  now : ℕ := tickInitial
  register : Register
  alarm : Bool := false

namespace CheckedByte

variable (s : CheckedByte)

/-- The tick of a call. -/
def tickOf : CheckerEvent → ℕ
  | .startRead tick => tick
  | .completeRead _ tick _ => tick
  | .startWrite tick _ => tick
  | .completeWrite _ tick => tick
  | _ => s.now

/-- The serial counter of the checker after the event. -/
def serialAfter : CheckerEvent → ℕ
  | .startRead _ => s.nextSerial + 1
  | .startWrite _ _ => s.nextSerial + 1
  | .startOther => s.nextSerial + 1
  | _ => s.nextSerial

/-- The answer of the checker and its tracker after the event. -/
def check : CheckerEvent → Except Abort (Bool × ByteTracker)
  | .startRead tick => .ok (true, s.tracker.startRead s.nextSerial tick)
  | .completeRead serial tick data => s.tracker.completeRead serial tick data
  | .startWrite tick data =>
    (s.tracker.startWrite s.nextSerial tick data).map fun t => (true, t)
  | .completeWrite serial tick =>
    (s.tracker.completeWrite serial tick).map fun t => (true, t)
  | .abortWrite serial => .ok (true, s.tracker.abortWrite serial)
  | .effect _ => .ok (true, s.tracker)
  | .startOther => .ok (true, s.tracker)

def step (e : CheckerEvent) : Except Abort CheckedByte :=
  (s.check e).map fun p =>
    { tracker := p.2
      nextSerial := s.serialAfter e
      now := s.tickOf e
      register := s.register.after s.nextSerial e
      alarm := s.alarm || !p.1 }

/-- The next event of a linearizable history, reported in the order of the ticks. -/
def Linearizable (e : CheckerEvent) : Prop :=
  s.now ≤ s.tickOf e ∧ s.tickOf e ≤ tickFuture ∧ s.register.Allows e

instance (e : CheckerEvent) : Decidable (s.Linearizable e) := by
  unfold Linearizable
  infer_instance

/-- No write completes at the tick at which an outstanding read started, and no read at the
tick at which a cluster of writes did. -/
def NoTie : CheckerEvent → Prop
  | .completeRead _ tick _ => ∀ c ∈ s.tracker.writeClusters, c.start ≠ tick
  | .completeWrite _ tick => ∀ r ∈ s.tracker.outstandingReads, r.start ≠ tick
  | _ => True

/-- The tick of the call is not the one that stands for the future, nor is there a tie. -/
def Apart (e : CheckerEvent) : Prop :=
  s.tickOf e ≠ tickFuture ∧ s.NoTie e

instance (e : CheckerEvent) : Decidable (s.NoTie e) := by
  cases e <;> unfold NoTie <;> infer_instance

instance (e : CheckerEvent) : Decidable (s.Apart e) := by
  unfold Apart
  infer_instance

/-- A byte of any value that has not been accessed. -/
def initial (value : UInt8) : CheckedByte where
  register := { value }

/-- The checker rejects the read of a linearizable history when a write completes at the tick
at which the read started, and an assertion fails when the read completes at the tick at which
the first write starts. -/
theorem checker_alarm_at_equal_ticks :
    (∃ s, Runs (Within step Linearizable) (initial 0)
        [.startRead 1, .completeRead 0 3 0, .startWrite 5 1, .startRead 10, .effect 1,
          .completeWrite 1 10, .completeRead 2 12 0] s ∧ s.alarm = true) ∧
      ∃ s, Runs (Within step Linearizable) (initial 0) [.startRead 10, .startWrite 12 1] s ∧
        s.Linearizable (.completeRead 0 12 0) ∧
          (s.step (.completeRead 0 12 0)).map (fun _ => ()) = .error .assertion := by
  constructor
  · exact exists_runs_of_execWithin (by decide +kernel)
  · exact exists_runs_of_execWithin (by decide +kernel)

end CheckedByte

end MemChecker
