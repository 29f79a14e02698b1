/-
# The Sequencer's callbacks

`Sequencer` (`src/mem/ruby/system/Sequencer.cc`) files a processor request in
one of two tables and completes it when the controller calls back with the
line's data block.  `hitCallback` then copies bytes out of the block or writes
the packet's bytes into it, as the request type says; `handleLlsc` decides from
the lock of the cache line what a store-conditional reports to the processor.

The two decisions are made apart: `hitCallback` gets the result of `handleLlsc`
and uses it in a trace line only.  So a failed store-conditional writes its
bytes all the same, and the block is as reported exactly in the runs where
those bytes are the ones already there (`SequencerRun.KeepsBlock`).

Left out: latencies and statistics, the MRU bits, the testers
(`m_usingNetworkTester` and `m_usingRubyTester` are false) and the deadlock
check.
-/
import Mathlib.Data.List.GetD
import Gem5.CacheMemory
import Gem5.MessageBuffer

open List

/-! ## Data blocks -/

/-- `DataBlock`: the bytes of a line. -/
abbrev DataBlock (size : ℕ) := Fin size → BitVec 8

namespace DataBlock

variable {size : ℕ}

/-- The bytes from `offset` on that `memcpy` takes from `getData(offset, len)`. -/
def getData (d : DataBlock size) (offset len : ℕ) : Except Abort (List (BitVec 8)) :=
  if h : offset + len ≤ size then
    .ok (List.ofFn fun i : Fin len => d ⟨offset + i.val, by omega⟩)
  else .error .assertion

def setData (d : DataBlock size) (data : List (BitVec 8)) (offset : ℕ) :
    Except Abort (DataBlock size) :=
  if offset + data.length ≤ size then
    .ok fun i =>
      if h : offset ≤ i.val ∧ i.val < offset + data.length then
        data.get ⟨i.val - offset, by omega⟩
      else d i
  else .error .assertion

end DataBlock

/-- `getOffset()`; with one-byte blocks `getBlockSizeBits() - 1` wraps around. -/
def Address.getOffset (a : Address) (blockSizeBits : ℕ) : ℕ :=
  (if blockSizeBits = 0 then a else a.bitSelect 0 (blockSizeBits - 1)).toNat

/-! ## Requests -/

/-- The types under which a request can be filed.  `makeRequest` makes all of them but
`RMW_Write`. -/
inductive FiledType
  | LD | IFETCH | ST | RMW_Read | RMW_Write | Locked_RMW_Read | Locked_RMW_Write
  | Load_Linked | Store_Conditional | FLUSH
  deriving DecidableEq, Repr

namespace FiledType

/-- The requests of `m_writeRequestTable`. -/
def isWrite : FiledType → Bool
  | LD | IFETCH => false
  | _ => true

/-- The requests to which `hitCallback` copies the bytes of the block. -/
def isLoad : FiledType → Bool
  | LD | IFETCH | RMW_Read | Locked_RMW_Read | Load_Linked => true
  | _ => false

end FiledType

/-- A `SequencerRequest` with its packet: the address, the buffer of `getSize()` bytes and the
extra data of the request.  `isFlush()` holds for the packets filed as `FLUSH` and no others. -/
structure FiledRequest where
  type : FiledType
  addr : Address
  data : List (BitVec 8)
  extraData : ℕ := 0
  deriving DecidableEq

/-- `RequestStatus`, as far as `insertRequest` returns it. -/
inductive RequestStatus
  | Ready | Aliased
  deriving DecidableEq, Repr

/-! ## The Sequencer -/

/-- The tables, and what the Sequencer uses of its controller: the data cache for the locks and
the block map. -/
structure Sequencer (g : CacheParams) where
  version : ℕ
  warmupEnabled : Bool := false
  dataCache : CacheMemory g Unit := {}
  writeRequestTable : List (Address × FiledRequest) := []
  readRequestTable : List (Address × FiledRequest) := []
  outstandingCount : ℕ := 0
  isBlocking : Bool := false
  blockMap : List Address := []

/-- The size of a block. -/
def CacheParams.blockSizeBytes (g : CacheParams) : ℕ := 2 ^ g.blockSizeBits

namespace Sequencer

variable {g : CacheParams}

variable (s : Sequencer g)

variable (a : Address)

def isBlocked : Bool := s.isBlocking && decide (a ∈ s.blockMap)

def blockOnQueue : Sequencer g :=
  { s with
    isBlocking := true
    blockMap := a :: s.blockMap.erase a }

def unblock : Sequencer g :=
  { s with
    isBlocking := s.isBlocking && !(s.blockMap.erase a).isEmpty
    blockMap := s.blockMap.erase a }

/-- The assertion around every change of the tables. -/
def Counted : Prop :=
  s.outstandingCount = s.writeRequestTable.length + s.readRequestTable.length

instance (s : Sequencer g) : Decidable s.Counted :=
  inferInstanceAs (Decidable (_ = _))

def insertRequest (r : FiledRequest) :
    Except Abort (Sequencer g × RequestStatus) :=
  let line := r.addr.maskLowOrderBits g.blockSizeBits
  if ¬ s.Counted then .error .assertion
  else if s.isBlocked line ∧ r.type ≠ .Locked_RMW_Write then .ok (s, .Aliased)
  else if (s.readRequestTable.lookup line).isSome ∨ (s.writeRequestTable.lookup line).isSome then
    -- an outstanding request of either table for the line
    .ok (s, .Aliased)
  else if r.type.isWrite then
    .ok ({ s with
      writeRequestTable := (line, r) :: s.writeRequestTable
      outstandingCount := s.outstandingCount + 1 }, .Ready)
  else
    .ok ({ s with
      readRequestTable := (line, r) :: s.readRequestTable
      outstandingCount := s.outstandingCount + 1 }, .Ready)

/-- `handleLlsc`: the request with its extra data, the cache with its locks, and the success. -/
def handleLlsc (r : FiledRequest) :
    Except Abort (CacheMemory g Unit × FiledRequest × Bool) :=
  match r.type with
  | .Store_Conditional => do
    let locked ← s.dataCache.isLocked a s.version
    let cache ← s.dataCache.clearLocked a
    pure (cache, { r with extraData := if locked then 1 else 0 }, locked)
  | .Load_Linked => do
    let cache ← s.dataCache.setLocked a s.version
    pure (cache, r, true)
  | _ => do
    let present ← s.dataCache.isTagPresent a
    if present then
      let locked ← s.dataCache.isLocked a s.version
      if locked then
        let cache ← s.dataCache.clearLocked a
        pure (cache, r, true)
      else pure (s.dataCache, r, true)
    else pure (s.dataCache, r, true)

/-- `hitCallback`: the packet and the block afterwards.  Its argument `llscSuccess` is not
used for the data. -/
def hitCallback (r : FiledRequest) (block : DataBlock g.blockSizeBytes) :
    Except Abort (FiledRequest × DataBlock g.blockSizeBytes) :=
  let offset := r.addr.getOffset g.blockSizeBits
  if s.warmupEnabled then do
    let block ← block.setData r.data offset
    pure (r, block)
  else if r.type = .FLUSH then .ok (r, block)
  else if r.type.isLoad then do
    let bytes ← block.getData offset r.data.length
    pure ({ r with data := bytes }, block)
  else do
    let block ← block.setData r.data offset
    pure (r, block)

/-- `markRemoved`. -/
def markRemoved : Except Abort (Sequencer g) :=
  let s := { s with outstandingCount := s.outstandingCount - 1 }
  if s.Counted then .ok s else .error .assertion

/-- `blockOnQueue` and `unblock` at the end of a locked pair. -/
def blockFor : FiledType → Sequencer g
  | .Locked_RMW_Read => s.blockOnQueue a
  | .Locked_RMW_Write => s.unblock a
  | _ => s

def writeCallback (block : DataBlock g.blockSizeBytes) :
    Except Abort (Sequencer g × FiledRequest × DataBlock g.blockSizeBytes) :=
  if g.IsLine a then
    match s.writeRequestTable.lookup a with
    | none => .error .assertion
    | some r => do
      let s ← markRemoved { s with writeRequestTable := eraseAddr a s.writeRequestTable }
      if r.type.isWrite then
        let (cache, r, _) ← s.handleLlsc a r
        let s := blockFor { s with dataCache := cache } a r.type
        let (r, block) ← s.hitCallback r block
        pure (s, r, block)
      else .error .assertion
  else .error .assertion

/-- `readCallback`, which ignores a line without an outstanding read. -/
def readCallback (block : DataBlock g.blockSizeBytes) :
    Except Abort (Option (Sequencer g × FiledRequest × DataBlock g.blockSizeBytes)) :=
  if g.IsLine a then
    match s.readRequestTable.lookup a with
    | none => .ok none
    | some r => do
      let s ← markRemoved { s with readRequestTable := eraseAddr a s.readRequestTable }
      if r.type.isWrite then .error .assertion
      else
        let (r, block) ← s.hitCallback r block
        pure (some (s, r, block))
  else .error .assertion

end Sequencer

/-! ## Runs -/

/-- A Sequencer with the data blocks of the lines, and the packets handed to `ruby_hit_callback`,
the last one first. -/
structure SequencerRun (g : CacheParams) where
  seq : Sequencer g
  blocks : Address → DataBlock g.blockSizeBytes
  hits : List FiledRequest := []

/-- New requests, the controller's callbacks, and what else happens to the cache: evictions,
snoops and refills, which change permissions and locks but write no block. -/
inductive SequencerOp (g : CacheParams)
  | insertRequest (r : FiledRequest)
  | writeCallback (a : Address)
  | readCallback (a : Address)
  | cacheOp (op : CacheOp g Unit)

/-- The bytes go into the block: a store, or a store-conditional reported as successful. -/
def FiledRequest.Stores (r : FiledRequest) : Prop :=
  r.type = .ST ∨ r.type = .RMW_Write ∨ r.type = .Locked_RMW_Write ∨
    (r.type = .Store_Conditional ∧ r.extraData = 1)

instance (r : FiledRequest) : Decidable r.Stores := inferInstanceAs (Decidable (_ ∨ _))

/-- **What a completed request means** for its block: byte by byte, a storing request leaves its
own bytes from its offset on and nothing else changes; a load has got the bytes of the block. -/
structure FiledRequest.Completes (g : CacheParams) (r : FiledRequest)
    (before after : DataBlock g.blockSizeBytes) : Prop where
  stored : ∀ i, after i =
    if r.Stores ∧ r.addr.getOffset g.blockSizeBits ≤ i.val then
      r.data.getD (i.val - r.addr.getOffset g.blockSizeBits) (before i)
    else before i
  loaded : r.type.isLoad → ∀ j (hj : j < r.data.length),
    ∃ i, i.val = r.addr.getOffset g.blockSizeBits + j ∧ r.data.get ⟨j, hj⟩ = before i

/-- A completed request answers the one that was filed: a load has the bytes it asked for, every
other request its own. -/
structure FiledRequest.Answers (r filed : FiledRequest) : Prop where
  type : r.type = filed.type
  addr : r.addr = filed.addr
  size : r.data.length = filed.data.length
  data : filed.type.isLoad = false → r.data = filed.data

theorem FiledRequest.not_stores {r : FiledRequest} (h : r.type.isLoad = true) : ¬ r.Stores := by
  unfold FiledRequest.Stores
  cases ht : r.type <;> simp_all [FiledType.isLoad]

namespace SequencerRun

variable {g : CacheParams}

def step (x : SequencerRun g) : SequencerOp g → Except Abort (SequencerRun g)
  | .insertRequest r => do
    let (s, _) ← x.seq.insertRequest r
    pure { x with seq := s }
  | .writeCallback a => do
    let (s, r, block) ← x.seq.writeCallback a (x.blocks a)
    pure { seq := s, blocks := Function.update x.blocks a block, hits := r :: x.hits }
  | .readCallback a => do
    let done ← x.seq.readCallback a (x.blocks a)
    match done with
    | none => pure x
    | some (s, r, block) =>
      pure { seq := s, blocks := Function.update x.blocks a block, hits := r :: x.hits }
  | .cacheOp op => do
    let cache ← x.seq.dataCache.step op
    pure { x with seq := { x.seq with dataCache := cache } }

/-- The request is outstanding under the line of its address. -/
def Outstanding (x : SequencerRun g) (a : Address) (r : FiledRequest) : Prop :=
  r.addr.maskLowOrderBits g.blockSizeBits = a ∧
    (x.seq.writeRequestTable.lookup a = some r ∨ x.seq.readRequestTable.lookup a = some r)

/-- Between two states at most one outstanding request completes, with its effect on its own
line. -/
def AsReported (x y : SequencerRun g) : Prop :=
  (y.hits = x.hits ∧ y.blocks = x.blocks) ∨
    ∃ a filed r, x.Outstanding a filed ∧ y.hits = r :: x.hits ∧ r.Answers filed ∧
      r.Completes g (x.blocks a) (y.blocks a) ∧ ∀ a', a' ≠ a → y.blocks a' = x.blocks a'

/-- A store-conditional completes while its line is locked, or carries the bytes that the block
has anyway. -/
def KeepsBlock (x : SequencerRun g) : SequencerOp g → Prop
  | .writeCallback a => ∀ r ∈ x.seq.writeRequestTable.lookup a, r.type = .Store_Conditional →
    x.seq.dataCache.isLocked a x.seq.version = .ok true ∨
      (x.blocks a).getData (r.addr.getOffset g.blockSizeBits) r.data.length = .ok r.data
  | _ => True

end SequencerRun

/-! ## The data of one callback -/

namespace DataBlock

variable {size : ℕ} {d d' : DataBlock size} {data : List (BitVec 8)} {offset len : ℕ}

theorem setData_eq_ok (h : d.setData data offset = .ok d') :
    offset + data.length ≤ size ∧
      ∀ i, d' i = if offset ≤ i.val then data.getD (i.val - offset) (d i) else d i := by
  unfold setData at h
  split at h
  · rename_i hlen
    cases h
    refine ⟨hlen, fun i => ?_⟩
    by_cases hi : offset ≤ i.val
    · by_cases hlt : i.val < offset + data.length
      · have : i.val - offset < data.length := by omega
        simp [hi, hlt, this]
      · have hge : data.length ≤ i.val - offset := by omega
        rw [if_pos hi, getD_eq_default _ _ hge]
        exact dif_neg fun hx => hlt hx.2
    · simp [hi]
  · cases h

theorem getData_eq_ok (h : d.getData offset len = .ok data) :
    data.length = len ∧
      ∀ j (hj : j < data.length), ∃ i, i.val = offset + j ∧ data.get ⟨j, hj⟩ = d i := by
  unfold getData at h
  split at h
  · cases h
    refine ⟨length_ofFn, fun j hj => ?_⟩
    rw [length_ofFn] at hj
    exact ⟨⟨offset + j, by omega⟩, rfl, by simp⟩
  · cases h

/-- Writing bytes changes nothing exactly if they are there already. -/
theorem setData_self_iff (h : d.setData data offset = .ok d') :
    d' = d ↔ d.getData offset data.length = .ok data := by
  obtain ⟨hlen, hd'⟩ := setData_eq_ok h
  unfold getData
  rw [dif_pos hlen]
  constructor
  · intro heq
    congr 1
    apply ext_get (by simp)
    intro j hj hj'
    have := hd' ⟨offset + j, by omega⟩
    rw [heq] at this
    simpa [hj'] using this
  · intro heq
    have heq := Except.ok.inj heq
    funext i
    rw [hd' i]
    split
    · by_cases hlt : i.val - offset < data.length
      · -- the byte that is written, read back from the list of the block's bytes
        rw [getD_eq_getElem _ _ hlt]
        have hget : data.get ⟨i.val - offset, hlt⟩ = d ⟨offset + (i.val - offset), by omega⟩ := by
          conv_lhs => rw [get_of_eq heq.symm]
          simp
        have hi' : (⟨offset + (i.val - offset), by omega⟩ : Fin size) = i := by
          apply Fin.ext
          show offset + (i.val - offset) = i.val
          omega
        rw [hi'] at hget
        exact hget
      · exact getD_eq_default _ _ (Nat.le_of_not_lt hlt)
    · rfl

end DataBlock

namespace Sequencer

variable {g : CacheParams} {s s' : Sequencer g} {a : Address} {r r' : FiledRequest}
  {b b' : DataBlock g.blockSizeBytes}

section

variable (hw : s.warmupEnabled = false) (h : s.hitCallback r b = .ok (r', b'))

include hw h

/-- Outside a warm-up `hitCallback` leaves a flush alone, copies bytes to a load and writes the
bytes of every other request. -/
theorem hitCallback_eq_ok :
    (r.type = .FLUSH ∧ r' = r ∧ b' = b) ∨
    (r.type.isLoad = true ∧ b' = b ∧ ∃ bytes, r' = { r with data := bytes } ∧
      b.getData (r.addr.getOffset g.blockSizeBits) r.data.length = .ok bytes) ∨
    (r.type ≠ .FLUSH ∧ r.type.isLoad = false ∧ r' = r ∧
      b.setData r.data (r.addr.getOffset g.blockSizeBits) = .ok b') := by
  unfold hitCallback at h
  rw [hw] at h
  split at h
  · rename_i hf
    cases hf
  · split at h
    · rename_i hflush
      cases h
      exact .inl ⟨hflush, rfl, rfl⟩
    · rename_i hflush
      split at h
      · rename_i hload
        obtain ⟨bytes, hbytes, h⟩ := Except.bind_eq_ok h
        cases h
        exact .inr (.inl ⟨hload, rfl, bytes, rfl, hbytes⟩)
      · rename_i hload
        obtain ⟨block, hblock, h⟩ := Except.bind_eq_ok h
        cases h
        exact .inr (.inr ⟨hflush, Bool.eq_false_iff.mpr hload, rfl, hblock⟩)

theorem hitCallback_answers : r'.Answers r := by
  rcases hitCallback_eq_ok hw h with ⟨-, rfl, -⟩ | ⟨hload, -, bytes, rfl, hbytes⟩ | ⟨-, -, rfl, -⟩
  · exact ⟨rfl, rfl, rfl, fun _ => rfl⟩
  · refine ⟨rfl, rfl, (DataBlock.getData_eq_ok hbytes).1, fun hl => ?_⟩
    rw [hload] at hl
    cases hl
  · exact ⟨rfl, rfl, rfl, fun _ => rfl⟩

/-- The completion is as reported unless a store-conditional reported as failed changes bytes. -/
theorem hitCallback_completes_iff :
    r'.Completes g b b' ↔ (r.type = .Store_Conditional → r.extraData = 1 ∨
      b.getData (r.addr.getOffset g.blockSizeBits) r.data.length = .ok r.data) := by
  rcases hitCallback_eq_ok hw h with ⟨hflush, rfl, rfl⟩ | ⟨hload, rfl, bytes, rfl, hbytes⟩ |
    ⟨hflush, hload, rfl, hset⟩
  · refine iff_of_true ⟨fun i => ?_, ?_⟩ ?_
    · simp [FiledRequest.Stores, hflush]
    · simp [hflush, FiledType.isLoad]
    · simp [hflush]
  · obtain ⟨-, hget⟩ := DataBlock.getData_eq_ok hbytes
    refine iff_of_true ⟨fun i => ?_, fun _ => hget⟩ ?_
    · rw [if_neg fun hx => FiledRequest.not_stores hload hx.1]
    · intro hs
      rw [hs] at hload
      cases hload
  · obtain ⟨-, hbytes⟩ := DataBlock.setData_eq_ok hset
    by_cases hstores : r'.Stores
    · refine iff_of_true ⟨fun i => ?_, fun hl => ?_⟩ ?_
      · rw [hbytes i]
        simp [hstores]
      · rw [hload] at hl
        cases hl
      · intro hs
        simp [FiledRequest.Stores, hs] at hstores
        exact .inl hstores
    · -- what is left is a failed store-conditional
      have hsc : r'.type = .Store_Conditional ∧ r'.extraData ≠ 1 := by
        cases ht : r'.type <;> simp_all [FiledRequest.Stores, FiledType.isLoad]
      have hiff : r'.Completes g b b' ↔ b' = b := by
        constructor
        · intro hc
          funext i
          rw [hc.stored i, if_neg fun hx => hstores hx.1]
        · rintro rfl
          refine ⟨fun i => ?_, fun hl => ?_⟩
          · rw [if_neg fun hx => hstores hx.1]
          · rw [hload] at hl
            cases hl
      rw [hiff, DataBlock.setData_self_iff hset]
      simp [hsc.1, hsc.2]

end

/-- `handleLlsc` changes nothing of the request but the extra data of a store-conditional, which
says whether the line was locked. -/
theorem handleLlsc_eq_ok {cache : CacheMemory g Unit} {success : Bool}
    (h : s.handleLlsc a r = .ok (cache, r', success)) :
    r'.type = r.type ∧ r'.addr = r.addr ∧ r'.data = r.data ∧
      (r.type = .Store_Conditional →
        (r'.extraData = 1 ↔ s.dataCache.isLocked a s.version = .ok true)) := by
  unfold handleLlsc at h
  split at h
  · obtain ⟨locked, hlocked, h⟩ := Except.bind_eq_ok h
    obtain ⟨cache', -, h⟩ := Except.bind_eq_ok h
    cases h
    rw [hlocked]
    cases success <;> simp
  · rename_i ht
    obtain ⟨cache', -, h⟩ := Except.bind_eq_ok h
    cases h
    refine ⟨rfl, rfl, rfl, fun hs => ?_⟩
    rw [ht] at hs
    cases hs
  · rename_i hsc hll
    -- an ordinary write returns the request as it is, whatever it does to the lock
    have hr : r' = r := by
      obtain ⟨present, -, h⟩ := Except.bind_eq_ok h
      split at h
      · obtain ⟨locked, -, h⟩ := Except.bind_eq_ok h
        split at h
        · obtain ⟨cache', -, h⟩ := Except.bind_eq_ok h
          cases h
          rfl
        · cases h
          rfl
      · cases h
        rfl
    subst hr
    exact ⟨rfl, rfl, rfl, fun hs => absurd hs hsc⟩

theorem markRemoved_eq_ok (h : s.markRemoved = .ok s') :
    s' = { s with outstandingCount := s.outstandingCount - 1 } := by
  unfold markRemoved at h
  dsimp only at h
  split at h
  · exact (Except.ok.inj h).symm
  · cases h

/-! ## The tables -/

/-- No warm-up, and every request is filed under its own line. -/
structure Filed (s : Sequencer g) : Prop where
  noWarmup : s.warmupEnabled = false
  write : ∀ a r, s.writeRequestTable.lookup a = some r →
    r.addr.maskLowOrderBits g.blockSizeBits = a
  read : ∀ a r, s.readRequestTable.lookup a = some r →
    r.addr.maskLowOrderBits g.blockSizeBits = a

theorem Filed.insertRequest (hs : s.Filed) {status : RequestStatus}
    (h : s.insertRequest r = .ok (s', status)) : s'.Filed := by
  -- a new entry is filed under the line of the request
  have hcons : ∀ table : List (Address × FiledRequest),
      (∀ a r, table.lookup a = some r → r.addr.maskLowOrderBits g.blockSizeBits = a) →
      ∀ a r', ((r.addr.maskLowOrderBits g.blockSizeBits, r) :: table).lookup a = some r' →
        r'.addr.maskLowOrderBits g.blockSizeBits = a := by
    intro table htable a r' hr'
    rw [lookup_cons_addr] at hr'
    split at hr'
    · rename_i ha
      cases hr'
      exact ha.symm
    · exact htable a r' hr'
  unfold Sequencer.insertRequest at h
  dsimp only at h
  split at h
  · cases h
  · split at h
    · cases h
      exact hs
    · split at h
      · cases h
        exact hs
      · split at h
        · cases h
          exact ⟨hs.noWarmup, hcons _ hs.write, hs.read⟩
        · cases h
          exact ⟨hs.noWarmup, hs.write, hcons _ hs.read⟩

/-- Erasing an entry and everything else a callback does keeps the tables filed. -/
theorem Filed.erase (hs : s.Filed) {n : ℕ} (a : Address) :
    Filed { s with
      writeRequestTable := eraseAddr a s.writeRequestTable
      outstandingCount := n } ∧
    Filed { s with
      readRequestTable := eraseAddr a s.readRequestTable
      outstandingCount := n } := by
  have herase : ∀ table : List (Address × FiledRequest),
      (∀ a r, table.lookup a = some r → r.addr.maskLowOrderBits g.blockSizeBits = a) →
      ∀ b r, (eraseAddr a table).lookup b = some r →
        r.addr.maskLowOrderBits g.blockSizeBits = b := by
    intro table htable b r hr
    rw [lookup_eraseAddr] at hr
    split at hr
    · cases hr
    · exact htable b r hr
  exact ⟨⟨hs.noWarmup, herase _ hs.write, hs.read⟩, ⟨hs.noWarmup, hs.write, herase _ hs.read⟩⟩

theorem Filed.blockFor (hs : s.Filed) (a : Address) (t : FiledType) : (s.blockFor a t).Filed := by
  cases t <;> exact ⟨hs.noWarmup, hs.write, hs.read⟩

/-- What a successful `writeCallback` did. -/
theorem writeCallback_eq_ok (hs : s.Filed) (h : s.writeCallback a b = .ok (s', r', b')) :
    ∃ r, s.writeRequestTable.lookup a = some r ∧ s'.Filed ∧ r'.Answers r ∧
      (r'.Completes g b b' ↔ (r.type = .Store_Conditional →
        s.dataCache.isLocked a s.version = .ok true ∨
          b.getData (r.addr.getOffset g.blockSizeBits) r.data.length = .ok r.data)) := by
  unfold writeCallback at h
  split at h
  · split at h
    · cases h
    · rename_i r hr
      refine ⟨r, hr, ?_⟩
      obtain ⟨s₁, hs₁, h⟩ := Except.bind_eq_ok h
      obtain rfl := markRemoved_eq_ok hs₁
      have hfiled := (hs.erase (n := s.outstandingCount - 1) a).1
      split at h
      · obtain ⟨⟨cache, r₂, success⟩, hllsc, h⟩ := Except.bind_eq_ok h
        obtain ⟨htype, haddr, hdata, hextra⟩ := handleLlsc_eq_ok hllsc
        obtain ⟨⟨r₃, b₃⟩, hhit, h⟩ := Except.bind_eq_ok h
        cases h
        have hfiled₃ := Filed.blockFor (s := { s with
            writeRequestTable := eraseAddr a s.writeRequestTable
            outstandingCount := s.outstandingCount - 1
            dataCache := cache }) ⟨hfiled.noWarmup, hfiled.write, hfiled.read⟩ a r₂.type
        refine ⟨hfiled₃, ?_, ?_⟩
        · have hans := hitCallback_answers hfiled₃.noWarmup hhit
          refine ⟨hans.type.trans htype, hans.addr.trans haddr, ?_, fun hl => ?_⟩
          · rw [hans.size, hdata]
          · rw [hans.data (by rwa [htype]), hdata]
        · rw [hitCallback_completes_iff hfiled₃.noWarmup hhit, htype, haddr, hdata]
          refine forall_congr' fun hsc => ?_
          rw [hextra hsc]
      · cases h
  · cases h

theorem readCallback_eq_ok (hs : s.Filed)
    (h : s.readCallback a b = .ok (some (s', r', b'))) :
    ∃ r, s.readRequestTable.lookup a = some r ∧ s'.Filed ∧ r'.Answers r ∧
      r'.Completes g b b' := by
  unfold readCallback at h
  split at h
  · split at h
    · cases h
    · rename_i r hr
      obtain ⟨s₁, hs₁, h⟩ := Except.bind_eq_ok h
      obtain rfl := markRemoved_eq_ok hs₁
      have hfiled := (hs.erase (n := s.outstandingCount - 1) a).2
      split at h
      · cases h
      · rename_i hread
        obtain ⟨⟨r₃, b₃⟩, hhit, h⟩ := Except.bind_eq_ok h
        cases h
        refine ⟨r, hr, hfiled, hitCallback_answers hfiled.noWarmup hhit, ?_⟩
        · rw [hitCallback_completes_iff hfiled.noWarmup hhit]
          intro hsc
          rw [hsc] at hread
          exact absurd rfl hread
  · cases h

end Sequencer

/-! ## Every step -/

namespace SequencerRun

variable {g : CacheParams} {x y : SequencerRun g}

/-- A callback that completes one request, for the block of the line it was called with. -/
theorem asReported_iff {a : Address} {s : Sequencer g} {filed r : FiledRequest}
    {block : DataBlock g.blockSizeBytes} (hout : x.Outstanding a filed) (hr : r.Answers filed) :
    x.AsReported { seq := s, blocks := Function.update x.blocks a block, hits := r :: x.hits } ↔
      r.Completes g (x.blocks a) block := by
  constructor
  · rintro (⟨hhits, -⟩ | ⟨a', filed', r', hout', hhits, hr', hc, -⟩)
    · exact absurd hhits (cons_ne_self r x.hits)
    · obtain rfl := (cons.inj hhits).1
      -- the line is that of the packet
      have ha : a' = a := by rw [← hout.1, ← hout'.1, ← hr.addr, ← hr'.addr]
      subst ha
      simpa using hc
  · intro hc
    refine .inr ⟨a, filed, r, hout, rfl, hr, ?_, ?_⟩
    · simpa using hc
    · intro a' ha'
      exact Function.update_of_ne ha' _ _

theorem step_filed (hx : x.seq.Filed) {op : SequencerOp g} (h : x.step op = .ok y) :
    y.seq.Filed := by
  cases op with
  | insertRequest r =>
    obtain ⟨⟨s, status⟩, hs, h⟩ := Except.bind_eq_ok h
    cases h
    exact hx.insertRequest hs
  | writeCallback a =>
    obtain ⟨⟨s, r, block⟩, hs, h⟩ := Except.bind_eq_ok h
    cases h
    obtain ⟨-, -, hfiled, -⟩ := Sequencer.writeCallback_eq_ok hx hs
    exact hfiled
  | readCallback a =>
    obtain ⟨done, hs, h⟩ := Except.bind_eq_ok h
    split at h
    · cases h
      exact hx
    · cases h
      obtain ⟨-, -, hfiled, -⟩ := Sequencer.readCallback_eq_ok hx hs
      exact hfiled
  | cacheOp op =>
    obtain ⟨cache, -, h⟩ := Except.bind_eq_ok h
    cases h
    exact ⟨hx.noWarmup, hx.write, hx.read⟩

theorem step_asReported_iff (hx : x.seq.Filed) {op : SequencerOp g} (h : x.step op = .ok y) :
    x.AsReported y ↔ x.KeepsBlock op := by
  cases op with
  | insertRequest r =>
    obtain ⟨⟨s, status⟩, -, h⟩ := Except.bind_eq_ok h
    cases h
    exact iff_of_true (.inl ⟨rfl, rfl⟩) trivial
  | writeCallback a =>
    obtain ⟨⟨s, r, block⟩, hs, h⟩ := Except.bind_eq_ok h
    cases h
    obtain ⟨filed, hfiled, -, hans, hiff⟩ := Sequencer.writeCallback_eq_ok hx hs
    rw [asReported_iff ⟨hx.write a filed hfiled, .inl hfiled⟩ hans, hiff]
    constructor
    · intro hsc r hr
      obtain rfl := Option.some.inj (hfiled.symm.trans hr)
      exact hsc
    · intro hkeep
      exact hkeep filed hfiled
  | readCallback a =>
    obtain ⟨done, hs, h⟩ := Except.bind_eq_ok h
    refine iff_of_true ?_ trivial
    split at h
    · cases h
      exact .inl ⟨rfl, rfl⟩
    · cases h
      obtain ⟨filed, hfiled, -, hans, hc⟩ := Sequencer.readCallback_eq_ok hx hs
      exact (asReported_iff ⟨hx.read a filed hfiled, .inr hfiled⟩ hans).mpr hc
  | cacheOp op =>
    obtain ⟨cache, -, h⟩ := Except.bind_eq_ok h
    cases h
    exact iff_of_true (.inl ⟨rfl, rfl⟩) trivial

end SequencerRun

/-- **Data semantics of the Sequencer.**  The runs in which every completion is as reported are
exactly those in which a store-conditional that fails carries the bytes of the block. -/
theorem sequencer_data_iff_keepsBlock (g : CacheParams) (version : ℕ) (cache : CacheMemory g Unit)
    (blocks : Address → DataBlock g.blockSizeBytes) (ops : List (SequencerOp g))
    (x : SequencerRun g) :
    Runs (fun x op y => x.step op = .ok y ∧ x.AsReported y)
        ⟨{ version := version, dataCache := cache }, blocks, []⟩ ops x ↔
      Runs (Within SequencerRun.step SequencerRun.KeepsBlock)
        ⟨{ version := version, dataCache := cache }, blocks, []⟩ ops x := by
  refine Runs.congr_of_invariant (P := fun x => x.seq.Filed) ?_ ?_ ?_
  · intro x op y hx
    constructor
    · rintro ⟨hstep, hreported⟩
      exact ⟨(SequencerRun.step_asReported_iff hx hstep).mp hreported, hstep⟩
    · rintro ⟨hkeep, hstep⟩
      exact ⟨hstep, (SequencerRun.step_asReported_iff hx hstep).mpr hkeep⟩
  · rintro x op y hx ⟨hstep, -⟩
    exact SequencerRun.step_filed hx hstep
  · refine ⟨rfl, ?_, ?_⟩
    · intro a r hr
      cases hr
    · intro a r hr
      cases hr

/-- A store-conditional without a load-linked before it: the processor is told that it failed
(extra data 0), and its byte is in the block. -/
theorem failed_store_conditional_writes :
    ∃ x, Runs (Within SequencerRun.step Anytime)
        (⟨{ version := 0 }, fun _ _ => 0, []⟩ : SequencerRun smallCache)
        [.cacheOp (.allocate 0x40 ()), .insertRequest ⟨.Store_Conditional, 0x43, [7], 0⟩,
          .writeCallback 0x40] x ∧
      x.hits = [⟨.Store_Conditional, 0x43, [7], 0⟩] ∧ x.blocks 0x40 (3 : Fin 64) = 7 := by
  exact exists_runs_of_execWithin (by decide +kernel)
