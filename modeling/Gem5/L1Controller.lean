/-
# The L1 controller and its Sequencer, for one line

The actions of the `-cache.sm` files executed on the controller's record of one
line, together with the callbacks of `Sequencer.cc` they make.  A transition
runs its actions in order and then writes the next state, as the generated
`doTransition` does.

* The cache entry and the TBE share one state field: `setState` always writes
  both, and `getState` reads whichever is there.
* `request` is the Sequencer's outstanding request for the line (at most one,
  `m_outstanding_count`), `inMandatoryQueue` tells whether the controller still
  has to pop it, and `blocked` whether the line is in `m_block_map` (between the
  callbacks of a `Locked_RMW_Read` and its `Locked_RMW_Write`).
* `isBlocked` is the line's part of the controller's counter `is_blocked`: the
  atomic messages received for this line.
* `waiting` is the record `m_waiting_buffers[addr]`, of which only the slot of
  rank 0 is ever filled: the three in_ports that stall share that rank, and a
  later stall overwrites the slot.
* `pos` is a ghost: the bus position of the line's last granted request.

The `Dirty` bits, timestamps and `finalDestinationSet` are left out: no
transition of these protocols reads them.
-/
import Gem5.SliccTypes

/-! ## Records -/

/-- The input buffers that a transition can stall. -/
inductive StallBuffer
  | mandatoryQueue | requestToCache | requestToCacheWB
  deriving DecidableEq, Repr

/-- A completed processor request, as the Sequencer reports it: `hit` for the callbacks of
`rx_load_hit` and `sx_*`, `pos` the ghost position, `dataBlk` the block read or left by the
write, `success` the result of `handleLlsc`. -/
structure Callback (n : ℕ) (β : Type) where
  core : Fin n
  type : RubyRequestType
  hit : Bool
  pos : ℕ
  dataBlk : β
  success : Bool
  deriving DecidableEq

/-- The L1 controller's data for one line. -/
structure L1 (n : ℕ) (β : Type) where
  state : CacheState := .I
  valid : Bool := false
  dataBlk : β
  isAtomic : Bool := false
  locked : Bool := false
  tbe : Option β := none
  request : Option (SequencerRequest β) := none
  inMandatoryQueue : Bool := false
  blocked : Bool := false
  isBlocked : ℤ := 0
  requestFromCache : List QueuedRequest := []
  requestFromCacheWB : ℕ := 0
  requestToCache : List (RequestMsg n) := []
  requestToCacheWB : List (RequestMsg n) := []
  stalled : List (RequestMsg n) := []
  stalledWB : List (RequestMsg n) := []
  waiting : Option StallBuffer := none
  responseToCache : List (ResponseMsg β) := []
  atomicRequestToCache : List AtomicRequestType := []
  pos : ℕ := 0

/-- The in_port being served, with the index of the message it peeks at. -/
inductive InPort (n : ℕ) (β : Type)
  | mandatory
  | request (i : ℕ) (msg : RequestMsg n)
  | requestWB (i : ℕ) (msg : RequestMsg n)
  | response (i : ℕ) (msg : ResponseMsg β)
  | atomic (i : ℕ)

/-- The declared rank of the in_port (`m_cur_in_port`). -/
@[simp] def InPort.rank {n : ℕ} {β : Type} : InPort n β → ℕ
  | .response _ _ | .atomic _ => 1
  | _ => 0

/-- What the actions run so far have done: the line's new record, the `DATA_TO_WB` blocks
and atomic messages sent, and the requests called back. -/
structure Firing (n : ℕ) (β : Type) where
  line : L1 n β
  wb : List β := []
  atomics : List AtomicRequestType := []
  callbacks : List (Callback n β) := []

variable {n : ℕ} {β : Type}

/-! ## Stalled messages -/

variable (l : L1 n β)

/-- `reanalyzeMessages` on the buffer recorded for the line.  A processor request that was
stalled becomes ready again, which the record does not show. -/
def L1.reanalyze : L1 n β :=
  match l.waiting with
  | some .requestToCache => { l with requestToCache := l.requestToCache ++ l.stalled, stalled := [] }
  | some .requestToCacheWB =>
    { l with requestToCacheWB := l.requestToCacheWB ++ l.stalledWB, stalledWB := [] }
  | _ => l

/-- `AbstractController::wakeUpBuffers(addr)`: only buffers of a lower rank than the in_port
being served are woken, but the record is erased in any case. -/
def L1.wakeUpBuffers (rank : ℕ) (l : L1 n β) : L1 n β :=
  { (if rank = 0 then l else l.reanalyze) with waiting := none }

/-- `AbstractController::wakeUpAllBuffers()`, as far as this line is concerned. -/
def L1.wakeUpAllBuffers : L1 n β :=
  { l.reanalyze with waiting := none }

/-- `isAtomic(addr)` of the cache file. -/
def L1.isAtomicLine : Bool := l.valid && l.isAtomic

/-! ## The Sequencer's callbacks -/

/-- `Sequencer::handleLlsc`: whether the request succeeds, and the lock bit afterwards. -/
def handleLlsc (type : RubyRequestType) (locked : Bool) : Bool × Bool :=
  match type with
  | .Store_Conditional => (locked, false)
  | .Load_Linked => (true, true)
  | _ => (true, false)

/-- `Sequencer::readCallback`, which ignores a line without an outstanding read. -/
def Firing.readCallback (c : Fin n) (hit : Bool) (x : Firing n β) : Firing n β :=
  match x.line.request with
  | some r =>
    if r.type.isRead then
      { x with
        line := { x.line with request := none }
        callbacks := x.callbacks ++ [⟨c, r.type, hit, x.line.pos, x.line.dataBlk, true⟩] }
    else x
  | none => x

/-- The block after `hitCallback` of a write-table request. -/
def SequencerRequest.apply (r : SequencerRequest β) (blk : β) : β :=
  if r.type.setsData then r.setData blk else blk

/-- `blockOnQueue` and `unblock` of `Sequencer::writeCallback`. -/
def blockedAfter (type : RubyRequestType) (blocked : Bool) : Bool :=
  match type with
  | .Locked_RMW_Read => true
  | .Locked_RMW_Write => false
  | _ => blocked

/-- `Sequencer::writeCallback`; without an outstanding write the Sequencer asserts, here
nothing happens. -/
def Firing.writeCallback (c : Fin n) (hit : Bool) (x : Firing n β) : Firing n β :=
  match x.line.request with
  | some r =>
    if r.type.isRead then x
    else
      { x with
        line := { x.line with
          request := none
          locked := (handleLlsc r.type x.line.locked).2
          blocked := blockedAfter r.type x.line.blocked
          dataBlk := r.apply x.line.dataBlk }
        callbacks := x.callbacks ++
          [⟨c, r.type, hit, x.line.pos, r.apply x.line.dataBlk,
            (handleLlsc r.type x.line.locked).1⟩] }
  | none => x

/-! ## Actions -/

/-- Put a request into `requestFromCache`. -/
@[simp] def L1.issue (l : L1 n β) (type : CoherenceRequestType) (side : Bool) : L1 n β :=
  { l with requestFromCache := l.requestFromCache ++ [⟨type, side⟩] }

/-- `CacheMemory::allocate` unless the line has an entry. -/
def L1.allocate [Inhabited β] (l : L1 n β) : L1 n β :=
  if l.valid then l
  else { l with valid := true, dataBlk := default, isAtomic := false, locked := false }

/-- Run one action for the in_port `p` of L1 `c`. -/
@[simp] def Firing.exec [Inhabited β] (c : Fin n) (p : InPort n β) (x : Firing n β) :
    CacheAction → Firing n β
  | .as_issueGETSMem => { x with line := x.line.issue .GETS false }
  | .ai_issueGETINSTR => { x with line := x.line.issue .GETI false }
  | .bm_issueGETMR => { x with line := x.line.issue .GETM true }
  | .bm_issueUpg => { x with line := x.line.issue .UPG false }
  | .bam_issueGETM | .bm_issueGETM => { x with line := x.line.issue .GETM false }
  | .bam_issueGETMATOMICST => { x with atomics := x.atomics ++ [.GETMATOMICST] }
  | .bam_issueGETMATOMICEN => { x with atomics := x.atomics ++ [.GETMATOMICEN] }
  | .bpm_issuePUTM | .bpm_issuePUTMR | .bpm_issuePUTMD =>
    { x with line := { x.line with requestFromCacheWB := x.line.requestFromCacheWB + 1 } }
  | .cc_sendDataCacheToDir => { x with wb := x.wb ++ [x.line.dataBlk] }
  | .ct_sendDataTBEToDir => { x with wb := x.wb ++ x.line.tbe.toList }
  | .r_load_hit => x.readCallback c false
  | .rx_load_hit => x.readCallback c true
  | .s_store_hit => x.writeCallback c false
  | .sx_store_hit => x.writeCallback c true
  | .sx_atomic_store_hit_set =>
    let y := x.writeCallback c true
    { y with line := { y.line with isAtomic := true } }
  | .sx_atomic_store_hit_unset =>
    let y := x.writeCallback c true
    { y with line := { y.line with isAtomic := false } }
  | .i_allocateAtomicTBE | .i_allocateTBE =>
    { x with line := { x.line with tbe := some x.line.dataBlk } }
  | .s_deallocateTBE => { x with line := { x.line with tbe := none } }
  | .k_popMandatoryQueue | .setStartTime | .setStartTimeCE =>
    { x with line := { x.line with inMandatoryQueue := false } }
  | .l_popRequestQueue =>
    match p with
    | .request i _ => { x with line := { x.line with requestToCache := x.line.requestToCache.eraseIdx i } }
    | _ => x
  | .l_popRequestWBQueue =>
    match p with
    | .requestWB i _ =>
      { x with line := { x.line with requestToCacheWB := x.line.requestToCacheWB.eraseIdx i } }
    | _ => x
  | .l_popAtomicRequestQueue =>
    match p with
    | .atomic i =>
      { x with line := { x.line with atomicRequestToCache := x.line.atomicRequestToCache.eraseIdx i } }
    | _ => x
  | .o_popIncomingResponseQueue =>
    match p with
    | .response i _ =>
      { x with line := { x.line with responseToCache := x.line.responseToCache.eraseIdx i } }
    | _ => x
  | .u_writeDataToL1Cache =>
    match p with
    | .response _ m => { x with line := { x.line with dataBlk := m.dataBlk } }
    | _ => x
  | .ff_deallocateL1CacheBlock =>
    { x with line := { x.line with valid := false, isAtomic := false, locked := false } }
  | .oo_allocateAtomicL1DCacheBlock =>
    { x with line := { x.line.allocate with isAtomic := true } }
  | .oo_allocateL1DCacheBlock | .pp_allocateL1ICacheBlock => { x with line := x.line.allocate }
  | .z_stallAndWaitMandatoryQueue =>
    { x with line := { x.line with waiting := some .mandatoryQueue } }
  | .z_stallAndWaitRequestQueue =>
    match p with
    | .request i m =>
      { x with line := { x.line with
          requestToCache := x.line.requestToCache.eraseIdx i
          stalled := x.line.stalled ++ [m]
          waiting := some .requestToCache } }
    | _ => x
  | .z_stallAndWaitRequestWBQueue =>
    match p with
    | .requestWB i m =>
      { x with line := { x.line with
          requestToCacheWB := x.line.requestToCacheWB.eraseIdx i
          stalledWB := x.line.stalledWB ++ [m]
          waiting := some .requestToCacheWB } }
    | _ => x
  | .kd_wakeUpDependents =>
    if x.line.isAtomicLine then x else { x with line := x.line.wakeUpBuffers p.rank }
  | .ka_wakeUpAllDependents =>
    if x.line.isAtomicLine then x else { x with line := x.line.wakeUpAllBuffers }
  | .setBlocked => { x with line := { x.line with isBlocked := x.line.isBlocked + 1 } }
  | .setUnblocked => { x with line := { x.line with isBlocked := x.line.isBlocked - 1 } }

/-! ## Transitions -/

/-- An entry whose permission becomes `Invalid` loses its lock bit
(`AbstractCacheEntry::changePermission`). -/
def CacheState.keepsLock (s : CacheState) : Bool := s.toPermission ≠ .Invalid

/-- `setState` and `setAccessPermission`. -/
@[simp] def L1.setState (l : L1 n β) (s : CacheState) : L1 n β :=
  { l with state := s, locked := l.locked && s.keepsLock }

@[simp] theorem CacheState.keepsLock_eq (s : CacheState) :
    s.keepsLock = (decide (s ≠ .I) && decide (s ≠ .NP)) := by
  cases s <;> rfl

/-- Run the actions `t.2` in order, then enter the state `t.1`. -/
@[simp] def L1.fire [Inhabited β] (c : Fin n) (p : InPort n β) (l : L1 n β)
    (t : CacheState × List CacheAction) : Firing n β :=
  let x := t.2.foldl (Firing.exec c p) { line := l }
  { x with line := x.line.setState t.1 }

/-- `doTransition`: fire the declared transition; `none` for an invalid one. -/
def L1.trigger [Inhabited β] (P : Protocol) (c : Fin n) (p : InPort n β) (l : L1 n β)
    (ev : CacheEvent) : Option (Firing n β) :=
  (P.cache l.state ev).map (l.fire c p)

theorem L1.trigger_eq_some [Inhabited β] {P : Protocol} {c : Fin n} {p : InPort n β} {l : L1 n β}
    {ev : CacheEvent} {x : Firing n β} (h : l.trigger P c p ev = some x) :
    ∃ t, P.cache l.state ev = some t ∧ x = l.fire c p t := by
  obtain ⟨t, ht, hx⟩ := Option.map_eq_some_iff.mp h
  exact ⟨t, ht, hx.symm⟩

/-! ## In_ports -/

/-- The event of a bus request seen by its own issuer. -/
def CoherenceRequestType.ownEvent : CoherenceRequestType → CacheEvent
  | GETS => .OWN_GETS
  | GETI => .OWN_GETI
  | GETM => .OWN_GETM
  | UPG => .OWN_UPG
  | PUTM => .OWN_PUTM

/-- The event of a bus request seen by the other L1s. -/
def CoherenceRequestType.otherEvent : CoherenceRequestType → CacheEvent
  | GETS => .Other_GETS
  | GETI => .Other_GETI
  | GETM => .Other_GETM
  | UPG => .Other_UPG
  | PUTM => .Other_PUTM

/-- The event `requestNetwork_in` and `requestNetworkWB_in` trigger at L1 `c`. -/
def RequestMsg.event (m : RequestMsg n) (c : Fin n) : CacheEvent :=
  if m.requestor = c then m.type.ownEvent else m.type.otherEvent

/-- `is_dataWaitingState`. -/
def CacheState.isDataWaiting : CacheState → Bool
  | IM_D | SM_D | M => true
  | _ => false

/-- The in_port leaves another core's GETS or GETM at the head of the queue while the line is
atomic and in one of the data waiting states. -/
def L1.holdsBack (c : Fin n) (m : RequestMsg n) : Bool :=
  decide (m.requestor ≠ c) && (m.type == .GETS || m.type == .GETM) && l.isAtomicLine &&
    l.state.isDataWaiting

/-- The event `responseNetwork_in` triggers. -/
def ResponseMsg.event (m : ResponseMsg β) : CacheEvent :=
  if m.exclusive then .Data_Exclusive else .Data

/-- The event `atomicRequestNetwork_in` triggers. -/
def AtomicRequestType.event : AtomicRequestType → CacheEvent
  | GETMATOMICST => .ATOMICST
  | GETMATOMICEN => .ATOMICEN
