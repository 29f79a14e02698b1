/-
# The directory and its memory, for one line

The in_ports and actions of the `-dir.sm` files on the directory's record of one
line.  The off-chip memory is a FIFO queue of reads and writes behind the
directory: `requestToMemory` holds the accesses queued by `queueMemoryRead` and
`queueMemoryWrite`, `responseFromMemory` the answers not yet handled.

`L1_GetS_IDs` and the other fields of the directory's TBE are left out (the
protocols send every answer to the requestor recorded in the memory message), as
is the slot arithmetic of `d_sendData`, which only fills in timestamps.
-/
import Gem5.SliccTypes

/-! ## Records -/

/-- An access queued at the memory: a read for an L1, or a write-back. -/
inductive MemoryRequest (n : ℕ) (β : Type)
  | read (requestor : Fin n)
  | write (dataBlk : β)

/-- An answer of the memory: the block for an L1 (`MEMORY_READ`), or the acknowledgement of a
write-back (`MEMORY_WB`). -/
inductive MemoryResponse (n : ℕ) (β : Type)
  | data (requestor : Fin n) (dataBlk : β)
  | ack

/-- The directory's data for one line. -/
structure Dir (n : ℕ) (β : Type) where
  state : DirState := .I
  owner : Option (Fin n) := none
  tbe : Bool := false
  requestToDir : List (RequestMsg n) := []
  requestToDirWB : List (RequestMsg n) := []
  stalled : List (RequestMsg n) := []
  waiting : Bool := false
  responseToDir : List (Fin n × β) := []
  requestToMemory : List (MemoryRequest n β) := []
  responseFromMemory : List (MemoryResponse n β) := []
  memory : β

/-- The directory in_port being served. -/
inductive DirPort (n : ℕ) (β : Type)
  | request (i : ℕ) (msg : RequestMsg n)
  | requestWB (i : ℕ) (msg : RequestMsg n)
  | response (i : ℕ) (sender : Fin n) (dataBlk : β)
  | memory (msg : MemoryResponse n β)

/-- The declared rank of the in_port. -/
@[simp] def DirPort.rank {n : ℕ} {β : Type} : DirPort n β → ℕ
  | .request _ _ | .requestWB _ _ => 0
  | .response _ _ _ => 1
  | .memory _ => 2

/-- What the directory actions run so far have done: the new record and the data responses
sent, each with its destination. -/
structure DirFiring (n : ℕ) (β : Type) where
  dir : Dir n β
  responses : List (Fin n × ResponseMsg β) := []

variable {n : ℕ} {β : Type}

/-! ## Actions -/

/-- `wakeUpBuffers(addr)` at the directory, see `L1.wakeUpBuffers`. -/
def Dir.wakeUpBuffers (rank : ℕ) (d : Dir n β) : Dir n β :=
  if rank = 0 ∨ d.waiting = false then { d with waiting := false }
  else { d with requestToDir := d.requestToDir ++ d.stalled, stalled := [], waiting := false }

/-- `d_sendData` and `d_sendDataExclusive`: answer the requestor of the memory message at the
head of `responseFromMemory` and dequeue it. -/
@[simp] def DirFiring.sendData (exclusive : Bool) (p : DirPort n β) (x : DirFiring n β) : DirFiring n β :=
  match p with
  | .memory (.data q b) =>
    { dir := { x.dir with responseFromMemory := x.dir.responseFromMemory.tail }
      responses := x.responses ++ [(q, ⟨exclusive, b⟩)] }
  | _ => x

/-- Run one directory action for the in_port `p`. -/
@[simp] def DirFiring.exec (p : DirPort n β) (x : DirFiring n β) : DirAction → DirFiring n β
  | .c_clearOwner => { x with dir := { x.dir with owner := none } }
  | .e_ownerIsRequestor =>
    match p with
    | .request _ m => { x with dir := { x.dir with owner := some m.requestor } }
    | _ => x
  | .d_sendData => x.sendData false p
  | .d_sendDataExclusive => x.sendData true p
  | .i_allocateTBE => { x with dir := { x.dir with tbe := true } }
  | .w_deallocateTBE => { x with dir := { x.dir with tbe := false } }
  | .ss_recordGetSL1ID => x
  | .j_popIncomingRequestQueue =>
    match p with
    | .request i _ => { x with dir := { x.dir with requestToDir := x.dir.requestToDir.eraseIdx i } }
    | _ => x
  | .j_popIncomingRequestWBQueue =>
    match p with
    | .requestWB i _ =>
      { x with dir := { x.dir with requestToDirWB := x.dir.requestToDirWB.eraseIdx i } }
    | _ => x
  | .k_popIncomingResponseQueue =>
    match p with
    | .response i _ _ => { x with dir := { x.dir with responseToDir := x.dir.responseToDir.eraseIdx i } }
    | _ => x
  | .l_popMemQueue =>
    { x with dir := { x.dir with responseFromMemory := x.dir.responseFromMemory.tail } }
  | .kd_wakeUpDependents => { x with dir := x.dir.wakeUpBuffers p.rank }
  | .qf_queueMemoryFetchRequest =>
    match p with
    | .request _ m =>
      { x with dir := { x.dir with
          requestToMemory := x.dir.requestToMemory ++ [.read m.requestor] } }
    | _ => x
  | .qw_queueMemoryWBRequest =>
    match p with
    | .response _ _ b =>
      { x with dir := { x.dir with requestToMemory := x.dir.requestToMemory ++ [.write b] } }
    | _ => x
  | .z_stallAndWaitRequest =>
    match p with
    | .request i m =>
      { x with dir := { x.dir with
          requestToDir := x.dir.requestToDir.eraseIdx i
          stalled := x.dir.stalled ++ [m]
          waiting := true } }
    | _ =>
      -- declared for PUTM as well, where the in_port served is the other one
      { x with dir := { x.dir with
          requestToDir := x.dir.requestToDir.tail
          stalled := x.dir.stalled ++ x.dir.requestToDir.head?.toList
          waiting := true } }

/-- Run the actions `t.2` in order, then enter the state `t.1`. -/
@[simp] def Dir.fire (p : DirPort n β) (d : Dir n β) (t : DirState × List DirAction) :
    DirFiring n β :=
  let x := t.2.foldl (DirFiring.exec p) { dir := d }
  { x with dir := { x.dir with state := t.1 } }

/-- `doTransition` of the directory. -/
def Dir.trigger (P : Protocol) (p : DirPort n β) (d : Dir n β) (ev : DirEvent) :
    Option (DirFiring n β) :=
  (P.dir d.state ev).map (d.fire p)

theorem Dir.trigger_eq_some {P : Protocol} {p : DirPort n β} {d : Dir n β} {ev : DirEvent}
    {x : DirFiring n β} (h : d.trigger P p ev = some x) :
    ∃ t, P.dir d.state ev = some t ∧ x = d.fire p t := by
  obtain ⟨t, ht, hx⟩ := Option.map_eq_some_iff.mp h
  exact ⟨t, ht, hx.symm⟩

variable (d : Dir n β)

/-- Waking a directory line that has recorded its stalled requests puts them back. -/
theorem Dir.wakeUpBuffers_eq (k : ℕ) (hk : k ≠ 0)
    (hs : d.stalled = [] ∨ d.waiting = true) :
    d.wakeUpBuffers k =
      { d with requestToDir := d.requestToDir ++ d.stalled, stalled := [], waiting := false } := by
  unfold Dir.wakeUpBuffers
  rcases hs with hs | hs
  · obtain ⟨⟩ := d
    simp only at hs
    subst hs
    split <;> simp
  · simp [hk, hs]

/-! ## In_ports -/

/-- The event `requestNetwork_in` triggers; a PUTM of an L1 that is not the owner is dequeued
without a transition. -/
def Dir.requestEvent (m : RequestMsg n) : Option DirEvent :=
  match m.type with
  | .GETS | .GETI => some .GETS
  | .GETM => some (if d.owner = some m.requestor then .GETMO else .GETM)
  | .UPG => some .UPG
  | .PUTM => if d.owner = some m.requestor then some .PUTM else none

/-- The event `requestNetworkWB_in` triggers: as above, without the owner's GETM. -/
def Dir.requestWBEvent (m : RequestMsg n) : Option DirEvent :=
  match m.type with
  | .GETS | .GETI => some .GETS
  | .GETM => some .GETM
  | .UPG => some .UPG
  | .PUTM => if d.owner = some m.requestor then some .PUTM else none

/-- The event `memQueue_in` triggers. -/
def MemoryResponse.event : MemoryResponse n β → DirEvent
  | .data _ _ => .Memory_Data
  | .ack => .Memory_Ack

/-- The memory performs the access at the head of its queue. -/
def Dir.accessMemory : Option (Dir n β) :=
  match d.requestToMemory with
  | [] => none
  | .read q :: rest =>
    some { d with
      requestToMemory := rest
      responseFromMemory := d.responseFromMemory ++ [.data q d.memory] }
  | .write b :: rest =>
    some { d with
      requestToMemory := rest
      responseFromMemory := d.responseFromMemory ++ [.ack]
      memory := b }
