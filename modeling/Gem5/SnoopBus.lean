/-
# One line on the snooping bus

`n` L1 controllers, the directory and the messages between them, for one line.
`Line.step` takes one controller transition or moves one message, in any order:
this is the system without any timing assumption.  What the network and the
Sequencer add is stated as a condition on the steps of a run: `Line.Tdm` is the
delivery discipline of the TDM bus, `Line.Late` the order of a request and its
answer at one L1, and `Line.Spares` excludes the victims that lose requests.

Ordering a request hands it to the input buffers of all L1s (the issuer
included) and of the directory, as the central switch does when it forwards the
broadcast.  Each of them takes it from its buffer in a step of its own; a bus
slot is over when all have (`Line.Seen`).  Memory accesses are served in the
order in which the directory queued them.

`clock` and `trace` are ghosts: the number of grants so far and the callbacks
made so far.  A grant is the ordering of a GETS, GETI or GETM, of an UPG whose
issuer still has its copy, or a silent upgrade of an exclusive copy.
-/
import Gem5.TransitionSystem
import Gem5.L1Controller
import Gem5.Directory
import Mathlib.Data.List.FinRange

/-! ## States, labels and faults -/

/-- The state of one line. -/
structure Line (n : ℕ) (β : Type) where
  cores : Fin n → L1 n β
  dir : Dir n β
  clock : ℕ := 0
  trace : List (Callback n β) := []

/-- The steps of a line. -/
inductive Label (n : ℕ) (β : Type)
  /-- The Sequencer of `c` accepts a request for the line. -/
  | issue (c : Fin n) (r : SequencerRequest β)
  /-- L1 `c` serves the request in its mandatory queue. -/
  | mandatory (c : Fin n)
  /-- L1 `c` picks the line as the victim of another line's request. -/
  | replacement (c : Fin n)
  /-- The bus orders the `i`th request of `requestFromCache` of `c`. -/
  | order (c : Fin n) (i : ℕ)
  /-- The bus orders a PUTM of `c`. -/
  | orderWB (c : Fin n)
  | request (c : Fin n) (i : ℕ)
  | requestWB (c : Fin n) (i : ℕ)
  | response (c : Fin n) (i : ℕ)
  | atomic (c : Fin n) (i : ℕ)
  /-- A transition of `c` on another line wakes all stalled messages. -/
  | wakeUp (c : Fin n)
  | dirRequest (i : ℕ)
  | dirRequestWB (i : ℕ)
  | dirResponse (i : ℕ)
  | memory
  | dirMemory

/-- Why a step is not taken: there is nothing to do for the label, or a controller meets an
event without a declared transition. -/
inductive Fault (n : ℕ)
  | disabled
  | invalidL1 (c : Fin n) (s : CacheState) (e : CacheEvent)
  | invalidDir (s : DirState) (e : DirEvent)
  deriving DecidableEq

/-- The fault is a call of `fatal("Invalid transition")`. -/
def Fault.isInvalid {n : ℕ} : Fault n → Bool
  | .disabled => false
  | _ => true

variable {n : ℕ} {β : Type}

/-- All L1s in `I`, the directory in `I`, the block `b` in memory. -/
def Line.init [Inhabited β] (n : ℕ) (b : β) : Line n β where
  cores := fun _ => { dataBlk := default }
  dir := { memory := b }

/-! ## Controller steps -/

variable (s : Line n β)

/-- Replace the record of L1 `c`. -/
def Line.setCore (c : Fin n) (l : L1 n β) : Line n β :=
  { s with cores := Function.update s.cores c l }

/-- The effect of a transition of L1 `c` on the line: atomic messages go to all other L1s. -/
def Line.commit (c : Fin n) (x : Firing n β) : Line n β where
  cores := fun d =>
    if d = c then x.line
    else { s.cores d with atomicRequestToCache := (s.cores d).atomicRequestToCache ++ x.atomics }
  dir := { s.dir with responseToDir := s.dir.responseToDir ++ x.wb.map (Prod.mk c) }
  clock := s.clock
  trace := s.trace ++ x.callbacks

/-- A step that only replaces the record of an L1. -/
theorem Line.setCore_eq_commit (c : Fin n) (l : L1 n β) :
    s.setCore c l = s.commit c { line := l } := by
  unfold Line.setCore Line.commit
  simp only [List.map_nil, List.append_nil, Line.mk.injEq, and_self, and_true]
  funext d
  rcases eq_or_ne d c with rfl | hd
  · simp
  · simp [hd]

/-- L1 `c` serves the in_port `p` with event `ev`. -/
def Line.serve [Inhabited β] (P : Protocol) (s : Line n β) (c : Fin n) (p : InPort n β)
    (ev : CacheEvent) : Except (Fault n) (Line n β) :=
  match (s.cores c).trigger P c p ev with
  | some x => .ok (s.commit c x)
  | none => .error (.invalidL1 c (s.cores c).state ev)

/-- A transition of an L1 either faults or is committed. -/
theorem Line.serve_eq_ok [Inhabited β] {P : Protocol} {s t : Line n β} {c : Fin n}
    {p : InPort n β} {ev : CacheEvent} (h : s.serve P c p ev = .ok t) :
    ∃ x, (s.cores c).trigger P c p ev = some x ∧ t = s.commit c x := by
  unfold Line.serve at h
  split at h
  · exact ⟨_, ‹_›, (Except.ok.inj h).symm⟩
  · cases h

/-- The effect of a directory transition on the line. -/
def Line.commitDir (x : DirFiring n β) : Line n β :=
  { s with
    cores := fun d =>
      { s.cores d with responseToCache :=
          (s.cores d).responseToCache ++
            (x.responses.filter fun r => r.1 = d).map Prod.snd }
    dir := x.dir }

variable (P : Protocol)

/-- The directory serves the in_port `p` with event `ev`. -/
def Line.serveDir (s : Line n β) (p : DirPort n β) (ev : DirEvent) :
    Except (Fault n) (Line n β) :=
  match s.dir.trigger P p ev with
  | some x => .ok (s.commitDir x)
  | none => .error (.invalidDir s.dir.state ev)

theorem Line.serveDir_eq_ok {P : Protocol} {s t : Line n β} {p : DirPort n β} {ev : DirEvent}
    (h : s.serveDir P p ev = .ok t) :
    ∃ x, s.dir.trigger P p ev = some x ∧ t = s.commitDir x := by
  unfold Line.serveDir at h
  split at h
  · exact ⟨_, ‹_›, (Except.ok.inj h).symm⟩
  · cases h

/-- The Sequencer accepts one request at a time, and for a line blocked by a locked
read-modify-write only its write (`insertRequest`); a locked write comes only after its
read. -/
def Line.issue (c : Fin n) (r : SequencerRequest β) :
    Except (Fault n) (Line n β) :=
  if (s.cores c).request.isNone ∧ (s.cores c).blocked = (r.type == .Locked_RMW_Write) then
    .ok (s.setCore c { s.cores c with request := some r, inMandatoryQueue := true })
  else .error .disabled

/-- An exclusive copy about to be written takes its place in the grant order. -/
def CacheState.upgradesSilently (s : CacheState) (e : CacheEvent) : Bool :=
  (s == .E || s == .EI_A) && (e == .Store || e == .RMW_Read)

/-- Record the grant of a silent upgrade. -/
def Line.grantSilently (c : Fin n) (e : CacheEvent) : Line n β :=
  if (s.cores c).state.upgradesSilently e then
    { s.setCore c { s.cores c with pos := s.clock } with clock := s.clock + 1 }
  else s

/-- `mandatoryQueue_in`. -/
def Line.serveMandatory [Inhabited β] (P : Protocol) (s : Line n β) (c : Fin n) :
    Except (Fault n) (Line n β) :=
  match (s.cores c).request with
  | some r =>
    if (s.cores c).inMandatoryQueue then
      (s.grantSilently c r.type.toEvent).serve P c .mandatory r.type.toEvent
    else .error .disabled
  | none => .error .disabled

/-- `mandatoryQueue_in` with a request for another line that needs this line's place. -/
def Line.serveReplacement [Inhabited β] (P : Protocol) (s : Line n β) (c : Fin n) :
    Except (Fault n) (Line n β) :=
  if (s.cores c).valid ∧ (s.cores c).request.isNone then
    s.serve P c .mandatory .Replacement
  else .error .disabled

/-- `requestNetwork_in`. -/
def Line.serveRequest [Inhabited β] (P : Protocol) (s : Line n β) (c : Fin n) (i : ℕ) :
    Except (Fault n) (Line n β) :=
  match (s.cores c).requestToCache[i]? with
  | some m =>
    if (s.cores c).holdsBack c m then .ok s else s.serve P c (.request i m) (m.event c)
  | none => .error .disabled

/-- `requestNetworkWB_in`. -/
def Line.serveRequestWB [Inhabited β] (P : Protocol) (s : Line n β) (c : Fin n) (i : ℕ) :
    Except (Fault n) (Line n β) :=
  match (s.cores c).requestToCacheWB[i]? with
  | some m =>
    if (s.cores c).holdsBack c m then .ok s else s.serve P c (.requestWB i m) (m.event c)
  | none => .error .disabled

/-- The requests that the directory answers with data. -/
def CoherenceRequestType.wantsData : CoherenceRequestType → Bool
  | GETS | GETI | GETM => true
  | _ => false

/-- `responseNetwork_in`. -/
def Line.serveResponse [Inhabited β] (P : Protocol) (s : Line n β) (c : Fin n) (i : ℕ) :
    Except (Fault n) (Line n β) :=
  match (s.cores c).responseToCache[i]? with
  | some m => s.serve P c (.response i m) m.event
  | none => .error .disabled

/-- `atomicRequestNetwork_in`. -/
def Line.serveAtomic [Inhabited β] (P : Protocol) (s : Line n β) (c : Fin n) (i : ℕ) :
    Except (Fault n) (Line n β) :=
  match (s.cores c).atomicRequestToCache[i]? with
  | some t => s.serve P c (.atomic i) t.event
  | none => .error .disabled

/-- `wakeUpAllBuffers()` called for another line of L1 `c`: `reanalyzeAllMessages` moves the
stalled messages of this line as well. -/
def Line.wakeUp (c : Fin n) : Line n β :=
  let l := s.cores c
  s.setCore c { l with
    requestToCache := l.requestToCache ++ l.stalled
    requestToCacheWB := l.requestToCacheWB ++ l.stalledWB
    stalled := []
    stalledWB := []
    waiting := none }

/-- `requestNetwork_in` of the directory. -/
def Line.serveDirRequest (s : Line n β) (i : ℕ) : Except (Fault n) (Line n β) :=
  match s.dir.requestToDir[i]? with
  | some m =>
    match s.dir.requestEvent m with
    | some ev => s.serveDir P (.request i m) ev
    | none => .ok { s with dir := { s.dir with requestToDir := s.dir.requestToDir.eraseIdx i } }
  | none => .error .disabled

/-- `requestNetworkWB_in` of the directory. -/
def Line.serveDirRequestWB (s : Line n β) (i : ℕ) :
    Except (Fault n) (Line n β) :=
  match s.dir.requestToDirWB[i]? with
  | some m =>
    match s.dir.requestWBEvent m with
    | some ev => s.serveDir P (.requestWB i m) ev
    | none =>
      .ok { s with dir := { s.dir with requestToDirWB := s.dir.requestToDirWB.eraseIdx i } }
  | none => .error .disabled

/-- `responseNetwork_in` of the directory. -/
def Line.serveDirResponse (s : Line n β) (i : ℕ) :
    Except (Fault n) (Line n β) :=
  match s.dir.responseToDir[i]? with
  | some (q, b) => s.serveDir P (.response i q b) .Data
  | none => .error .disabled

/-- The memory performs its next access. -/
def Line.accessMemory (s : Line n β) : Except (Fault n) (Line n β) :=
  match s.dir.accessMemory with
  | some d => .ok { s with dir := d }
  | none => .error .disabled

/-- `memQueue_in` of the directory. -/
def Line.serveDirMemory (s : Line n β) : Except (Fault n) (Line n β) :=
  match s.dir.responseFromMemory.head? with
  | some m => s.serveDir P (.memory m) m.event
  | none => .error .disabled

/-! ## The bus -/

/-- Ordering the request grants the line: data requests always, an UPG if its issuer still has
the copy it wants to upgrade. -/
def CoherenceRequestType.grants (t : CoherenceRequestType) (s : CacheState) : Bool :=
  t.wantsData || (t == .UPG && (s == .SM_W || s == .SM_WL))

/-- Put a request of the WB vnet or of the request vnet into all input buffers. -/
def Line.broadcast (m : RequestMsg n) : Line n β :=
  { s with
    cores := fun d => { s.cores d with requestToCache := (s.cores d).requestToCache ++ [m] }
    dir := { s.dir with requestToDir := s.dir.requestToDir ++ [m] } }

/-- Put a PUTM into all input buffers. -/
def Line.broadcastWB (m : RequestMsg n) : Line n β :=
  { s with
    cores := fun d => { s.cores d with requestToCacheWB := (s.cores d).requestToCacheWB ++ [m] }
    dir := { s.dir with requestToDirWB := s.dir.requestToDirWB ++ [m] } }

/-- The line after the bus has taken the request `q`, the `i`th of `c`. -/
def Line.ordered (c : Fin n) (i : ℕ) (q : QueuedRequest) : Line n β :=
  let granted := q.type.grants (s.cores c).state
  let l := { s.cores c with
    requestFromCache := (s.cores c).requestFromCache.eraseIdx i
    pos := if granted then s.clock else (s.cores c).pos }
  { (s.setCore c l).broadcast ⟨q.type, c⟩ with
    clock := if granted then s.clock + 1 else s.clock }

/-- The bus takes the `i`th request of `requestFromCache` of `c`. -/
def Line.order (c : Fin n) (i : ℕ) : Except (Fault n) (Line n β) :=
  match (s.cores c).requestFromCache[i]? with
  | some q => .ok (s.ordered c i q)
  | none => .error .disabled

/-- The line after the bus has taken a PUTM of `c`. -/
def Line.orderedWB (c : Fin n) : Line n β :=
  (s.setCore c { s.cores c with
    requestFromCacheWB := (s.cores c).requestFromCacheWB - 1 }).broadcastWB ⟨.PUTM, c⟩

/-- The bus takes a PUTM of `c`. -/
def Line.orderWB (c : Fin n) : Except (Fault n) (Line n β) :=
  if (s.cores c).requestFromCacheWB = 0 then .error .disabled else .ok (s.orderedWB c)

/-- One step of the line, without timing assumptions. -/
def Line.step [Inhabited β] (P : Protocol) (s : Line n β) : Label n β → Except (Fault n) (Line n β)
  | .issue c r => s.issue c r
  | .mandatory c => s.serveMandatory P c
  | .replacement c => s.serveReplacement P c
  | .order c i => s.order c i
  | .orderWB c => s.orderWB c
  | .request c i => s.serveRequest P c i
  | .requestWB c i => s.serveRequestWB P c i
  | .response c i => s.serveResponse P c i
  | .atomic c i => s.serveAtomic P c i
  | .wakeUp c => .ok (s.wakeUp c)
  | .dirRequest i => s.serveDirRequest P i
  | .dirRequestWB i => s.serveDirRequestWB P i
  | .dirResponse i => s.serveDirResponse P i
  | .memory => s.accessMemory
  | .dirMemory => s.serveDirMemory P

/-! ## The TDM discipline -/

/-- Every request ordered so far has been seen by every L1 and by the directory. -/
def Line.Seen : Prop :=
  (∀ d, (s.cores d).requestToCache = [] ∧ (s.cores d).requestToCacheWB = []) ∧
    s.dir.requestToDir = [] ∧ s.dir.requestToDirWB = []

/-- No write-back data and no memory access is under way. -/
def Line.MemoryIdle : Prop :=
  s.dir.responseToDir = [] ∧ s.dir.requestToMemory = [] ∧ s.dir.responseFromMemory = []

/-- Some L1 has a side packet to send. -/
def Line.SidePending : Prop :=
  ∃ d, ∃ q ∈ (s.cores d).requestFromCache, q.side = true

/-- The `i`th request of `c` is a side packet. -/
def Line.IsSide (c : Fin n) (i : ℕ) : Prop :=
  ∃ q ∈ (s.cores c).requestFromCache[i]?, q.side = true

/-- The label orders a request. -/
def Label.isOrder : Label n β → Bool
  | .order _ _ | .orderWB _ => true
  | _ => false

/-- Buffers are served from the front, and the directory serves its request port before the
memory's answers. -/
def Line.InOrder : Label n β → Prop
  | .request _ i | .requestWB _ i | .dirRequest i | .dirRequestWB i | .dirResponse i => i = 0
  | .dirMemory => s.dir.requestToDir = []
  | _ => True

/-- A side packet goes before every other request. -/
def Line.SideFirst : Label n β → Prop
  | .order c i => s.SidePending → s.IsSide c i
  | .orderWB _ => ¬ s.SidePending
  | _ => True

/-- Requests are ordered one at a time, each seen by all before the next, side packets first. -/
def Line.BusOrder (l : Label n β) : Prop :=
  s.InOrder l ∧ s.SideFirst l ∧ (l.isOrder = true → s.Seen)

/-- **The delivery discipline of the TDM bus**: in addition, write-back data and memory accesses
finish before the next request is ordered. -/
def Line.Tdm (l : Label n β) : Prop :=
  s.BusOrder l ∧ (l.isOrder = true → s.MemoryIdle)

/-- `DATA` reaches an L1 only after the L1 has seen its own request. -/
def Line.Late : Label n β → Prop
  | .response c _ => ∀ m ∈ (s.cores c).requestToCache, m.requestor = c → m.type.wantsData = false
  | _ => True

/-- No line with stalled requests is the victim of a replacement: stalling the replacement would
overwrite the record by which the requests are woken. -/
def Line.Spares : Label n β → Prop
  | .replacement c => (s.cores c).stalled = []
  | _ => True

/-- The discipline of the bus, for runs without such victims. -/
def Line.Slotted (l : Label n β) : Prop := s.Tdm l ∧ s.Spares l

section Decidable

instance (s : Line n β) : Decidable s.Seen := inferInstanceAs (Decidable (_ ∧ _))

instance (s : Line n β) : Decidable s.MemoryIdle := inferInstanceAs (Decidable (_ ∧ _))

instance (s : Line n β) : Decidable s.SidePending := inferInstanceAs (Decidable (∃ _, _))

instance (s : Line n β) (c : Fin n) (i : ℕ) : Decidable (s.IsSide c i) :=
  inferInstanceAs (Decidable (∃ q ∈ (s.cores c).requestFromCache[i]?, q.side = true))

instance (s : Line n β) : (l : Label n β) → Decidable (s.InOrder l)
  | .request _ i | .requestWB _ i | .dirRequest i | .dirRequestWB i | .dirResponse i =>
    inferInstanceAs (Decidable (i = 0))
  | .dirMemory => inferInstanceAs (Decidable (s.dir.requestToDir = []))
  | .issue _ _ | .mandatory _ | .replacement _ | .order _ _ | .orderWB _ | .response _ _
  | .atomic _ _ | .wakeUp _ | .memory => inferInstanceAs (Decidable True)

instance (s : Line n β) : (l : Label n β) → Decidable (s.SideFirst l)
  | .order c i => inferInstanceAs (Decidable (s.SidePending → s.IsSide c i))
  | .orderWB _ => inferInstanceAs (Decidable (¬ s.SidePending))
  | .issue _ _ | .mandatory _ | .replacement _ | .request _ _ | .requestWB _ _ | .response _ _
  | .atomic _ _ | .wakeUp _ | .dirRequest _ | .dirRequestWB _ | .dirResponse _ | .memory
  | .dirMemory => inferInstanceAs (Decidable True)

instance (s : Line n β) (l : Label n β) : Decidable (s.BusOrder l) :=
  inferInstanceAs (Decidable (_ ∧ _ ∧ (l.isOrder = true → s.Seen)))

instance (s : Line n β) (l : Label n β) : Decidable (s.Tdm l) :=
  inferInstanceAs (Decidable (_ ∧ (l.isOrder = true → s.MemoryIdle)))

instance (s : Line n β) : (l : Label n β) → Decidable (s.Late l)
  | .response c _ => inferInstanceAs (Decidable (∀ m ∈ (s.cores c).requestToCache,
      m.requestor = c → m.type.wantsData = false))
  | .issue _ _ | .mandatory _ | .replacement _ | .order _ _ | .orderWB _ | .request _ _
  | .requestWB _ _ | .atomic _ _ | .wakeUp _ | .dirRequest _ | .dirRequestWB _ | .dirResponse _
  | .memory | .dirMemory => inferInstanceAs (Decidable True)

instance (s : Line n β) : (l : Label n β) → Decidable (s.Spares l)
  | .replacement c => inferInstanceAs (Decidable ((s.cores c).stalled = []))
  | .issue _ _ | .mandatory _ | .order _ _ | .orderWB _ | .request _ _ | .requestWB _ _
  | .response _ _ | .atomic _ _ | .wakeUp _ | .dirRequest _ | .dirRequestWB _ | .dirResponse _
  | .memory | .dirMemory => inferInstanceAs (Decidable True)

instance (s : Line n β) (l : Label n β) : Decidable (s.Slotted l) :=
  inferInstanceAs (Decidable (_ ∧ _))

end Decidable
