/-
# Requests, refusals and retries between RubyPort and Sequencer

`RubyPort` (`src/mem/ruby/system/RubyPort.cc`) takes the requests of any number
of slave ports to one `Sequencer`.  `makeRequest` accepts one request at a time;
a port whose request is refused goes to `retryList`, and `ruby_hit_callback`
sends a retry to every port on that list.

`sendRetryReq` calls out of `ruby_hit_callback`, and the port may come back with
its request at once.  The loop is therefore cut at its iterations: a callback
moves `retryList` to `curRetryList`, and every `sendRetryReq` is a step of its
own, so whatever the ports do before the next iteration is an interleaving of
steps.

Left out: the response of a completed request, which `schedTimingResp` queues
for a later cycle, the message that `issueRequest` puts into the mandatory
queue, and the drain manager.  `m_usingRubyTester` is false.

* `RubyPort.step`        — one call, or one iteration of the retry loop.
* `RubyPort.Polite`      — when the ports and the controller may call.
* `RubyPort.Tracked`     — the invariant of all runs.
-/
import Gem5.Sequencer
import Mathlib

open List

open Function

/-! ## Requests -/

/-- What `recvTimingReq` and `makeRequest` read of a packet and its request; `storeCheck` is the
flag of an X86 request. -/
structure MemPacket where
  addr : Address
  data : List (BitVec 8)
  extraData : ℕ := 0
  isRead : Bool := false
  isWrite : Bool := false
  isFlush : Bool := false
  isLLSC : Bool := false
  isLockedRMW : Bool := false
  isInstFetch : Bool := false
  storeCheck : Bool := false
  memInhibitAsserted : Bool := false
  deriving DecidableEq

/-- The `primary_type` of `makeRequest`. -/
def MemPacket.primaryType (pkt : MemPacket) : Except Abort FiledType :=
  if pkt.isLLSC then
    if pkt.isWrite then .ok .Store_Conditional
    else if pkt.isRead then .ok .Load_Linked
    else .error .assertion
  else if pkt.isLockedRMW then
    if pkt.isWrite then .ok .Locked_RMW_Write
    else if pkt.isRead then .ok .Locked_RMW_Read
    else .error .assertion
  else if pkt.isRead then
    if pkt.isInstFetch then .ok .IFETCH
    else if pkt.storeCheck then .ok .RMW_Read
    else .ok .LD
  else if pkt.isWrite then .ok .ST
  else if pkt.isFlush then .ok .FLUSH
  else .error .assertion

/-- `RequestStatus`, as `makeRequest` returns it. -/
inductive MakeRequestStatus
  | Issued | BufferFull | Aliased
  deriving DecidableEq, Repr

namespace Sequencer

variable {g : CacheParams}

def makeRequest (s : Sequencer g) (pkt : MemPacket) :
    Except Abort (Sequencer g × MakeRequestStatus) :=
  -- a single MSHR
  if 1 ≤ s.outstandingCount then .ok (s, .BufferFull)
  else do
    let type ← pkt.primaryType
    let (s, status) ← s.insertRequest ⟨type, pkt.addr, pkt.data, pkt.extraData⟩
    match status with
    | .Ready => pure (s, .Issued)
    | .Aliased => pure (s, .Aliased)

end Sequencer

/-! ## The port -/

/-- A `RubyPort` with its Sequencer; `P` are the slave ports.

The last three fields are not of the source: the ports whose last request was refused and that
have not been sent a retry since, the ports on `retryList` when `ruby_hit_callback` was last
called, and those its loop has called since. -/
structure RubyPort (P : Type) (g : CacheParams) where
  sequencer : SequencerRun g
  retryList : List P := []
  curRetryList : List P := []
  waiting : P → Bool := fun _ => false
  listed : List P := []
  sent : List P := []

/-- The calls of the slave ports and the controller, and the iterations of the retry loop. -/
inductive RubyPortOp (P : Type) (g : CacheParams)
  | recvTimingReq (port : P) (pkt : MemPacket)
  | writeCallback (a : Address)
  | readCallback (a : Address)
  | sendRetryReq
  | cacheOp (op : CacheOp g Unit)

namespace RubyPort

variable {P : Type} [DecidableEq P] {g : CacheParams} (isMemAddr : Address → Bool)

variable (x : RubyPort P g)

def addToRetryList (port : P) : RubyPort P g :=
  if port ∈ x.retryList then x else { x with retryList := x.retryList ++ [port] }

/-- `MemSlavePort::recvTimingReq`, with its result. -/
def recvTimingReq (port : P) (pkt : MemPacket) :
    Except Abort (RubyPort P g × Bool) :=
  if pkt.memInhibitAsserted then .error .assertion
  else if isMemAddr pkt.addr = false then
    -- a pio request goes to the pio port
    .ok (x, true)
  else if pkt.addr.getOffset g.blockSizeBits + pkt.data.length ≤ g.blockSizeBytes then do
    let (s, status) ← x.sequencer.seq.makeRequest pkt
    let y := { x with sequencer := { x.sequencer with seq := s } }
    match status with
    | .Issued => pure (y, true)
    | _ => pure (y.addToRetryList port, false)
  else .error .assertion

/-- `ruby_hit_callback` up to its loop. -/
def rubyHitCallback (r : FiledRequest) : Except Abort (RubyPort P g) :=
  if isMemAddr r.addr then
    .ok { x with retryList := [], curRetryList := x.retryList, listed := x.retryList, sent := [] }
  else .error .assertion

def step (x : RubyPort P g) : RubyPortOp P g → Except Abort (RubyPort P g)
  | .recvTimingReq port pkt => do
    let (y, accepted) ← x.recvTimingReq isMemAddr port pkt
    pure { y with waiting := Function.update y.waiting port (!accepted) }
  | .writeCallback a => do
    let (s, r, block) ← x.sequencer.seq.writeCallback a (x.sequencer.blocks a)
    rubyHitCallback isMemAddr { x with
      sequencer.seq := s
      sequencer.blocks := Function.update x.sequencer.blocks a block
      sequencer.hits := r :: x.sequencer.hits } r
  | .readCallback a => do
    let done ← x.sequencer.seq.readCallback a (x.sequencer.blocks a)
    match done with
    | none => pure x
    | some (s, r, block) =>
      rubyHitCallback isMemAddr { x with
        sequencer.seq := s
        sequencer.blocks := Function.update x.sequencer.blocks a block
        sequencer.hits := r :: x.sequencer.hits } r
  | .sendRetryReq =>
    match x.curRetryList with
    | [] => .ok x
    | port :: rest => .ok { x with
        curRetryList := rest
        waiting := Function.update x.waiting port false
        sent := x.sent ++ [port] }
  | .cacheOp op => do
    let y ← x.sequencer.step (.cacheOp op)
    pure { x with sequencer := y }

/-- A refused port sends again only when it has been sent a retry, be it from inside
`sendRetryReq`; and the controller does not call back from inside the retry loop. -/
def Polite : RubyPortOp P g → Prop
  | .recvTimingReq port _ => x.waiting port = false
  | .writeCallback _ | .readCallback _ => x.curRetryList = []
  | .sendRetryReq | .cacheOp _ => True

instance (x : RubyPort P g) : (op : RubyPortOp P g) → Decidable (x.Polite op)
  | .recvTimingReq _ _ => inferInstanceAs (Decidable (_ = _))
  | .writeCallback _ | .readCallback _ => inferInstanceAs (Decidable (_ = _))
  | .sendRetryReq | .cacheOp _ => inferInstanceAs (Decidable True)

end RubyPort

/-! ## What holds in every state -/

/-- A `Locked_RMW_Read` of the line has completed, and no `Locked_RMW_Write` since. -/
def SequencerRun.HoldsLock {g : CacheParams} (x : SequencerRun g) (a : Address) : Prop :=
  ∃ newer r older, x.hits = newer ++ r :: older ∧
    (r.type = .Locked_RMW_Read ∧ r.addr.maskLowOrderBits g.blockSizeBits = a) ∧
    ∀ w ∈ newer, ¬ (w.type = .Locked_RMW_Write ∧ w.addr.maskLowOrderBits g.blockSizeBits = a)

/-- **No lost retry.**  `closes` is why an open locked pair is enough: its write is not refused
while nothing is outstanding, and it ends with a hit callback. -/
structure RubyPort.NoLostRetry {P : Type} [DecidableEq P] {g : CacheParams}
    (isMemAddr : Address → Bool) (x : RubyPort P g) : Prop where
  /-- A waiting port is listed once, for the next hit callback or for the loop that runs. -/
  once : ∀ p, x.waiting p = true → x.retryList.count p + x.curRetryList.count p = 1
  /-- Outside the loop it is in `retryList`. -/
  inList : x.curRetryList = [] → ∀ p, x.waiting p = true → x.retryList.count p = 1
  /-- No other port is listed. -/
  waits : ∀ p, p ∈ x.retryList ∨ p ∈ x.curRetryList → x.waiting p = true
  /-- A hit callback sends a retry to every port then listed, in order. -/
  served : x.sent ++ x.curRetryList = x.listed
  counted : x.sequencer.seq.outstandingCount =
    x.sequencer.seq.writeRequestTable.length + x.sequencer.seq.readRequestTable.length
  single : x.sequencer.seq.outstandingCount ≤ 1
  /-- While a port is listed, a request is outstanding or a locked pair is open. -/
  due : x.retryList ≠ [] → 1 ≤ x.sequencer.seq.outstandingCount ∨
    ∃ a, x.sequencer.HoldsLock a ∧ x.sequencer.seq.isBlocked a = true
  closes : x.sequencer.seq.outstandingCount = 0 → ∀ port pkt,
    pkt.primaryType = .ok .Locked_RMW_Write → pkt.memInhibitAsserted = false →
    pkt.addr.getOffset g.blockSizeBits + pkt.data.length ≤ g.blockSizeBytes →
    ∃ y, x.recvTimingReq isMemAddr port pkt = .ok (y, true)

/-! ## The Sequencer: one request, and the blocked lines -/

namespace Sequencer

variable {g : CacheParams} {s s' : Sequencer g} {r r' : FiledRequest} {a : Address}
variable {b b' : DataBlock g.blockSizeBytes}

theorem insertRequest_ready (h : s.insertRequest r = .ok (s', .Ready)) :
    s'.outstandingCount = s.outstandingCount + 1 ∧ s'.Counted ∧
      s'.blockMap = s.blockMap ∧ s'.isBlocking = s.isBlocking := by
  unfold insertRequest at h
  dsimp only at h
  split at h
  · cases h
  · rename_i hcounted
    have hcounted : s.outstandingCount =
        s.writeRequestTable.length + s.readRequestTable.length := not_not.mp hcounted
    split at h
    · cases h
    · split at h
      · cases h
      · split at h
        · cases h
          refine ⟨rfl, ?_, rfl, rfl⟩
          show s.outstandingCount + 1 = (s.writeRequestTable.length + 1) + s.readRequestTable.length
          omega
        · cases h
          refine ⟨rfl, ?_, rfl, rfl⟩
          show s.outstandingCount + 1 = s.writeRequestTable.length + (s.readRequestTable.length + 1)
          omega

/-- A request that is not filed changes nothing, and its line is blocked or has a request. -/
theorem insertRequest_aliased (h : s.insertRequest r = .ok (s', .Aliased)) :
    s' = s ∧ ((∃ a, s.isBlocked a = true) ∨ s.writeRequestTable ≠ [] ∨ s.readRequestTable ≠ []) := by
  unfold insertRequest at h
  dsimp only at h
  split at h
  · cases h
  · split at h
    · rename_i hblocked
      cases h
      exact ⟨rfl, .inl ⟨_, hblocked.1⟩⟩
    · split at h
      · rename_i htables
        cases h
        refine ⟨rfl, .inr ?_⟩
        rcases htables with hread | hwrite
        · right
          intro hnil
          rw [hnil] at hread
          cases hread
        · left
          intro hnil
          rw [hnil] at hwrite
          cases hwrite
      · split at h <;> cases h

theorem makeRequest_cases {pkt : MemPacket} {status : MakeRequestStatus}
    (h : s.makeRequest pkt = .ok (s', status)) :
    (status = .Issued ∧ s.outstandingCount = 0 ∧ ∃ r, s.insertRequest r = .ok (s', .Ready)) ∨
      (status ≠ .Issued ∧ s' = s ∧ (1 ≤ s.outstandingCount ∨ (∃ a, s.isBlocked a = true) ∨
        s.writeRequestTable ≠ [] ∨ s.readRequestTable ≠ [])) := by
  unfold makeRequest at h
  split at h
  · rename_i hfull
    cases h
    exact .inr ⟨nofun, rfl, .inl hfull⟩
  · obtain ⟨type, -, h⟩ := Except.bind_eq_ok h
    obtain ⟨⟨s₁, filed⟩, hinsert, h⟩ := Except.bind_eq_ok h
    cases filed with
    | Ready =>
      cases h
      exact .inl ⟨rfl, by omega, _, hinsert⟩
    | Aliased =>
      cases h
      obtain ⟨rfl, hwhy⟩ := insertRequest_aliased hinsert
      exact .inr ⟨nofun, rfl, .inr hwhy⟩

theorem counted_of_markRemoved (h : s.markRemoved = .ok s') : s'.Counted := by
  unfold markRemoved at h
  dsimp only at h
  split at h
  · rename_i hcounted
    cases h
    exact hcounted
  · cases h

/-- `blockFor` changes the block map only. -/
theorem counted_blockFor {t : FiledType} : (s.blockFor a t).Counted ↔ s.Counted := by
  cases t <;> exact Iff.rfl

theorem outstandingCount_blockFor {t : FiledType} :
    (s.blockFor a t).outstandingCount = s.outstandingCount := by
  cases t <;> rfl

/-- What `writeCallback` does to the count and the block map. -/
theorem writeCallback_blockFor (hs : s.Filed) (h : s.writeCallback a b = .ok (s', r', b')) :
    ∃ s₁ : Sequencer g, s' = s₁.blockFor a r'.type ∧ s₁.Counted ∧
      s₁.outstandingCount = s.outstandingCount - 1 ∧
      s₁.blockMap = s.blockMap ∧ s₁.isBlocking = s.isBlocking := by
  unfold writeCallback at h
  split at h
  · split at h
    · cases h
    · obtain ⟨s₁, hs₁, h⟩ := Except.bind_eq_ok h
      have hcounted := counted_of_markRemoved hs₁
      obtain rfl := markRemoved_eq_ok hs₁
      split at h
      · obtain ⟨⟨cache, r₂, success⟩, hllsc, h⟩ := Except.bind_eq_ok h
        obtain ⟨⟨r₃, b₃⟩, hhit, h⟩ := Except.bind_eq_ok h
        cases h
        refine ⟨{ s with
          writeRequestTable := eraseAddr a s.writeRequestTable
          outstandingCount := s.outstandingCount - 1
          dataCache := cache }, ?_, hcounted, rfl, rfl, rfl⟩
        have htype : r'.type = r₂.type := by
          refine (hitCallback_answers ?_ hhit).type
          cases r₂.type <;> exact hs.noWarmup
        rw [htype]
      · cases h
  · cases h

/-- What `readCallback` does to the count and the block map. -/
theorem readCallback_blockMap (hs : s.Filed) (h : s.readCallback a b = .ok (some (s', r', b'))) :
    r'.type.isWrite = false ∧ s'.Counted ∧ s'.outstandingCount = s.outstandingCount - 1 ∧
      s'.blockMap = s.blockMap ∧ s'.isBlocking = s.isBlocking := by
  unfold readCallback at h
  split at h
  · split at h
    · cases h
    · obtain ⟨s₁, hs₁, h⟩ := Except.bind_eq_ok h
      have hcounted := counted_of_markRemoved hs₁
      obtain rfl := markRemoved_eq_ok hs₁
      split at h
      · cases h
      · rename_i hread
        obtain ⟨⟨r₃, b₃⟩, hhit, h⟩ := Except.bind_eq_ok h
        cases h
        refine ⟨?_, hcounted, rfl, rfl, rfl⟩
        rw [(hitCallback_answers hs.noWarmup hhit).type]
        exact Bool.eq_false_iff.mpr hread
  · cases h

/-- `m_is_blocking` says whether the block map has an entry. -/
structure Blocking (s : Sequencer g) : Prop where
  nodup : s.blockMap.Nodup
  flag : s.isBlocking = !s.blockMap.isEmpty

theorem Blocking.congr (hs : s.Blocking) (hmap : s'.blockMap = s.blockMap)
    (hflag : s'.isBlocking = s.isBlocking) : s'.Blocking := by
  refine ⟨?_, ?_⟩
  · rw [hmap]
    exact hs.nodup
  · rw [hmap, hflag]
    exact hs.flag

theorem Blocking.isBlocked_iff (hs : s.Blocking) : s.isBlocked a = true ↔ a ∈ s.blockMap := by
  unfold isBlocked
  rw [Bool.and_eq_true, decide_eq_true_iff]
  refine ⟨And.right, fun ha => ⟨?_, ha⟩⟩
  rw [hs.flag, Bool.not_eq_true', isEmpty_eq_false_iff]
  exact ne_nil_of_mem ha

theorem Blocking.blockFor (hs : s.Blocking) (t : FiledType) : (s.blockFor a t).Blocking := by
  cases t with
  | Locked_RMW_Read =>
    refine ⟨?_, rfl⟩
    refine nodup_cons.mpr ⟨?_, hs.nodup.erase a⟩
    rw [hs.nodup.mem_erase_iff]
    exact fun ha => ha.1 rfl
  | Locked_RMW_Write =>
    refine ⟨hs.nodup.erase a, ?_⟩
    show (s.isBlocking && !(s.blockMap.erase a).isEmpty) = !(s.blockMap.erase a).isEmpty
    rw [hs.flag]
    -- what is left after the erasure was there before
    rcases hmap : s.blockMap with _ | ⟨c, rest⟩
    · rfl
    · rfl
  | _ => exact hs

theorem Blocking.mem_blockFor (hs : s.Blocking) {c : Address} {t : FiledType} :
    c ∈ (s.blockFor a t).blockMap ↔
      (t = .Locked_RMW_Read ∧ a = c) ∨ (c ∈ s.blockMap ∧ ¬ (t = .Locked_RMW_Write ∧ a = c)) := by
  cases t with
  | Locked_RMW_Read =>
    show c ∈ a :: s.blockMap.erase a ↔ _
    rw [mem_cons, hs.nodup.mem_erase_iff]
    constructor
    · rintro (rfl | ⟨-, hc⟩)
      · exact .inl ⟨rfl, rfl⟩
      · exact .inr ⟨hc, fun hx => by cases hx.1⟩
    · rintro (⟨-, rfl⟩ | ⟨hc, -⟩)
      · exact .inl rfl
      · by_cases hca : c = a
        · exact .inl hca
        · exact .inr ⟨hca, hc⟩
  | Locked_RMW_Write =>
    show c ∈ s.blockMap.erase a ↔ _
    rw [hs.nodup.mem_erase_iff]
    constructor
    · rintro ⟨hca, hc⟩
      exact .inr ⟨hc, fun hx => hca hx.2.symm⟩
    · rintro (⟨hx, -⟩ | ⟨hc, hca⟩)
      · cases hx
      · exact ⟨fun hx => hca ⟨rfl, hx.symm⟩, hc⟩
  | _ => simp [Sequencer.blockFor]

/-- With nothing outstanding, a `Locked_RMW_Write` is filed. -/
theorem makeRequest_locked_write (hs : s.Counted) (hfree : s.outstandingCount = 0)
    {pkt : MemPacket} (ht : pkt.primaryType = .ok .Locked_RMW_Write) :
    ∃ s', s.makeRequest pkt = .ok (s', .Issued) := by
  have hlen : s.writeRequestTable.length + s.readRequestTable.length = 0 := hs.symm.trans hfree
  have hwrite : s.writeRequestTable = [] := eq_nil_of_length_eq_zero (by omega)
  have hread : s.readRequestTable = [] := eq_nil_of_length_eq_zero (by omega)
  unfold makeRequest insertRequest
  rw [if_neg (by omega), ht]
  dsimp only [bind, Except.bind]
  rw [if_neg (not_not.mpr hs), if_neg (fun hx => hx.2 rfl), hwrite, hread]
  exact ⟨_, rfl⟩

end Sequencer

namespace SequencerRun

variable {g : CacheParams} {x y : SequencerRun g} {a : Address}

variable {s : Sequencer g} {blocks : Address → DataBlock g.blockSizeBytes} {r : FiledRequest}

theorem holdsLock_cons :
    HoldsLock ⟨s, blocks, r :: x.hits⟩ a ↔
      (r.type = .Locked_RMW_Read ∧ r.addr.maskLowOrderBits g.blockSizeBits = a) ∨
        (x.HoldsLock a ∧
          ¬ (r.type = .Locked_RMW_Write ∧ r.addr.maskLowOrderBits g.blockSizeBits = a)) := by
  constructor
  · rintro ⟨newer, r₁, older, hhits, hr, hnewer⟩
    rcases newer with _ | ⟨w, newer⟩
    · obtain ⟨rfl, -⟩ := cons.inj hhits
      exact .inl hr
    · obtain ⟨rfl, holder⟩ := cons.inj hhits
      refine .inr ⟨⟨newer, r₁, older, holder, hr, fun v hv => ?_⟩, ?_⟩
      · exact hnewer v (mem_cons_of_mem r hv)
      · exact hnewer r mem_cons_self
  · rintro (hr | ⟨⟨newer, r₁, older, hhits, hr, hnewer⟩, hw⟩)
    · exact ⟨[], r, x.hits, rfl, hr, fun w hw => absurd hw not_mem_nil⟩
    · refine ⟨r :: newer, r₁, older, congrArg (r :: ·) hhits, hr, fun v hv => ?_⟩
      rcases mem_cons.mp hv with rfl | hv
      · exact hw
      · exact hnewer v hv

/-- The state of the Sequencer: at most one request, and the blocked lines are those of the
locked pairs that are open. -/
structure Served (x : SequencerRun g) : Prop where
  filed : x.seq.Filed
  counted : x.seq.Counted
  single : x.seq.outstandingCount ≤ 1
  blocking : x.seq.Blocking
  locked : ∀ a, a ∈ x.seq.blockMap ↔ x.HoldsLock a

/-- Requests are refused for a reason that the next hit callback may remove. -/
theorem Served.due (hx : x.Served)
    (h : 1 ≤ x.seq.outstandingCount ∨ (∃ a, x.seq.isBlocked a = true) ∨
      x.seq.writeRequestTable ≠ [] ∨ x.seq.readRequestTable ≠ []) :
    1 ≤ x.seq.outstandingCount ∨ ∃ a, x.HoldsLock a ∧ x.seq.isBlocked a = true := by
  have hcounted : x.seq.outstandingCount =
      x.seq.writeRequestTable.length + x.seq.readRequestTable.length := hx.counted
  rcases h with hcount | ⟨a, ha⟩ | hwrite | hread
  · exact .inl hcount
  · exact .inr ⟨a, (hx.locked a).mp (hx.blocking.isBlocked_iff.mp ha), ha⟩
  · have := length_pos_of_ne_nil hwrite
    exact .inl (by omega)
  · have := length_pos_of_ne_nil hread
    exact .inl (by omega)

theorem Served.insertRequest (hx : x.Served) (hfree : x.seq.outstandingCount = 0)
    (h : x.seq.insertRequest r = .ok (s, .Ready)) :
    Served { x with seq := s } := by
  obtain ⟨hcount, hcounted, hmap, hflag⟩ := Sequencer.insertRequest_ready h
  refine ⟨hx.filed.insertRequest h, hcounted, ?_, hx.blocking.congr hmap hflag, fun a => ?_⟩
  · show s.outstandingCount ≤ 1
    omega
  · show a ∈ s.blockMap ↔ x.HoldsLock a
    rw [hmap]
    exact hx.locked a

theorem Served.writeCallback (hx : x.Served) {b block : DataBlock g.blockSizeBytes}
    (h : x.seq.writeCallback a b = .ok (s, r, block)) :
    Served ⟨s, blocks, r :: x.hits⟩ := by
  obtain ⟨filed, hfiled, hs, hans, -⟩ := Sequencer.writeCallback_eq_ok hx.filed h
  obtain ⟨s₁, rfl, hcounted, hcount, hmap, hflag⟩ := Sequencer.writeCallback_blockFor hx.filed h
  have hblocking : s₁.Blocking := hx.blocking.congr hmap hflag
  -- the callback's line is that of the packet
  have hline : r.addr.maskLowOrderBits g.blockSizeBits = a := by
    rw [hans.addr]
    exact hx.filed.write a filed hfiled
  refine ⟨hs, Sequencer.counted_blockFor.mpr hcounted, ?_, hblocking.blockFor r.type, fun c => ?_⟩
  · have := hx.single
    show (s₁.blockFor a r.type).outstandingCount ≤ 1
    rw [Sequencer.outstandingCount_blockFor]
    omega
  · rw [holdsLock_cons, hblocking.mem_blockFor, hmap, hline, hx.locked c]

theorem Served.readCallback (hx : x.Served) {b block : DataBlock g.blockSizeBytes}
    (h : x.seq.readCallback a b = .ok (some (s, r, block))) :
    Served ⟨s, blocks, r :: x.hits⟩ := by
  obtain ⟨-, -, hs, -, -⟩ := Sequencer.readCallback_eq_ok hx.filed h
  obtain ⟨hread, hcounted, hcount, hmap, hflag⟩ := Sequencer.readCallback_blockMap hx.filed h
  refine ⟨hs, hcounted, ?_, hx.blocking.congr hmap hflag, fun c => ?_⟩
  · have := hx.single
    show s.outstandingCount ≤ 1
    omega
  · -- a read is of neither type of a locked pair
    have hnotRead : r.type ≠ .Locked_RMW_Read := fun ht => by
      rw [ht] at hread
      cases hread
    have hnotWrite : r.type ≠ .Locked_RMW_Write := fun ht => by
      rw [ht] at hread
      cases hread
    show c ∈ s.blockMap ↔ _
    rw [holdsLock_cons, hmap, hx.locked c]
    simp [hnotRead, hnotWrite]

theorem Served.cacheOp (hx : x.Served) {op : CacheOp g Unit}
    (h : x.step (.cacheOp op) = .ok y) : y.Served ∧ y.seq.outstandingCount =
      x.seq.outstandingCount ∧ y.hits = x.hits ∧ y.seq.blockMap = x.seq.blockMap := by
  have hfiled := step_filed hx.filed h
  obtain ⟨cache, -, h⟩ := Except.bind_eq_ok h
  cases h
  exact ⟨⟨hfiled, hx.counted, hx.single, ⟨hx.blocking.nodup, hx.blocking.flag⟩, hx.locked⟩,
    rfl, rfl, rfl⟩

end SequencerRun

/-! ## The ports -/

namespace RubyPort

variable {P : Type} [DecidableEq P] {g : CacheParams} {isMemAddr : Address → Bool}
variable {x y : RubyPort P g}

/-- The invariant. -/
structure Tracked (x : RubyPort P g) : Prop where
  served : x.sequencer.Served
  once : ∀ p, x.retryList.count p + x.curRetryList.count p = if x.waiting p then 1 else 0
  retried : x.sent ++ x.curRetryList = x.listed
  due : x.retryList ≠ [] → 1 ≤ x.sequencer.seq.outstandingCount ∨
    ∃ a, x.sequencer.HoldsLock a ∧ x.sequencer.seq.isBlocked a = true

theorem Tracked.waiting_iff (hx : x.Tracked) (p : P) :
    x.waiting p = true ↔ p ∈ x.retryList ∨ p ∈ x.curRetryList := by
  have honce := hx.once p
  rw [← count_pos_iff, ← count_pos_iff]
  constructor
  · intro hp
    rw [if_pos hp] at honce
    omega
  · intro hlisted
    by_contra hp
    rw [if_neg hp] at honce
    omega

/-- What `recvTimingReq` does. -/
theorem recvTimingReq_cases {port : P} {pkt : MemPacket} {accepted : Bool}
    (h : x.recvTimingReq isMemAddr port pkt = .ok (y, accepted)) :
    (accepted = true ∧ y = x) ∨
      (accepted = true ∧ x.sequencer.seq.outstandingCount = 0 ∧
        ∃ s r, x.sequencer.seq.insertRequest r = .ok (s, .Ready) ∧
          y = { x with sequencer.seq := s }) ∨
      (accepted = false ∧ y = x.addToRetryList port ∧
        (1 ≤ x.sequencer.seq.outstandingCount ∨ (∃ a, x.sequencer.seq.isBlocked a = true) ∨
          x.sequencer.seq.writeRequestTable ≠ [] ∨ x.sequencer.seq.readRequestTable ≠ [])) := by
  unfold recvTimingReq at h
  split at h
  · cases h
  · split at h
    · cases h
      exact .inl ⟨rfl, rfl⟩
    · split at h
      · obtain ⟨⟨s, status⟩, hmake, h⟩ := Except.bind_eq_ok h
        rcases Sequencer.makeRequest_cases hmake with
          ⟨rfl, hfree, r, hinsert⟩ | ⟨hstatus, rfl, hwhy⟩
        · cases h
          exact .inr (.inl ⟨rfl, hfree, s, r, hinsert, rfl⟩)
        · refine .inr (.inr ?_)
          cases status with
          | Issued => exact absurd rfl hstatus
          | BufferFull =>
            cases h
            exact ⟨rfl, rfl, hwhy⟩
          | Aliased =>
            cases h
            exact ⟨rfl, rfl, hwhy⟩
      · cases h

/-- An accepted request leaves the lists as they are. -/
theorem Tracked.accept (hx : x.Tracked) {port : P} (hport : x.waiting port = false)
    {s : SequencerRun g} (hs : s.Served)
    (hdue : x.retryList ≠ [] → 1 ≤ s.seq.outstandingCount ∨
      ∃ a, s.HoldsLock a ∧ s.seq.isBlocked a = true) :
    Tracked { x with sequencer := s, waiting := update x.waiting port false } := by
  refine ⟨hs, fun p => ?_, hx.retried, hdue⟩
  show _ = if update x.waiting port false p then 1 else 0
  rw [← hport, update_eq_self]
  exact hx.once p

/-- A refused port goes to the end of the list. -/
theorem Tracked.refuse (hx : x.Tracked) {port : P} (hport : x.waiting port = false)
    (hdue : 1 ≤ x.sequencer.seq.outstandingCount ∨
      ∃ a, x.sequencer.HoldsLock a ∧ x.sequencer.seq.isBlocked a = true) :
    Tracked { x.addToRetryList port with
      waiting := update x.waiting port true } := by
  have hnot : ¬ (port ∈ x.retryList ∨ port ∈ x.curRetryList) := by
    rw [← hx.waiting_iff, hport]
    decide
  have hadd : x.addToRetryList port = { x with retryList := x.retryList ++ [port] } :=
    if_neg fun hmem => hnot (.inl hmem)
  rw [hadd]
  refine ⟨hx.served, fun p => ?_, hx.retried, fun _ => hdue⟩
  show (x.retryList ++ [port]).count p + x.curRetryList.count p =
    if update x.waiting port true p then 1 else 0
  have honce := hx.once p
  rcases eq_or_ne p port with rfl | hp
  · rw [hport] at honce
    simp at honce ⊢
    omega
  · rw [update_of_ne hp, ← honce]
    simp [Ne.symm hp]

theorem Tracked.hit (hx : x.Tracked) (hidle : x.curRetryList = []) {s : SequencerRun g}
    (hs : s.Served) {r : FiledRequest}
    (h : rubyHitCallback isMemAddr { x with sequencer := s } r = .ok y) : y.Tracked := by
  unfold rubyHitCallback at h
  split at h
  · cases h
    refine ⟨hs, fun p => ?_, rfl, fun hne => absurd rfl hne⟩
    have honce := hx.once p
    rw [hidle] at honce
    show [].count p + x.retryList.count p = if x.waiting p then 1 else 0
    rw [← honce, count_nil, add_comm]
  · cases h

/-- The loop goes on: the port is off the lists and may send again. -/
theorem Tracked.sendRetryReq (hx : x.Tracked) {port : P} {rest : List P}
    (hlist : x.curRetryList = port :: rest) :
    Tracked { x with
      curRetryList := rest
      waiting := update x.waiting port false
      sent := x.sent ++ [port] } := by
  refine ⟨hx.served, fun p => ?_, ?_, hx.due⟩
  · have honce := hx.once p
    rw [hlist] at honce
    show x.retryList.count p + rest.count p =
      if update x.waiting port false p then 1 else 0
    rcases eq_or_ne p port with rfl | hp
    · rw [count_cons_self] at honce
      rw [update_self]
      split at honce
      · simp only [Bool.false_eq_true, if_false]
        omega
      · omega
    · rw [update_of_ne hp, ← honce, count_cons_of_ne (Ne.symm hp)]
  · show (x.sent ++ [port]) ++ rest = x.listed
    rw [← hx.retried, hlist, append_assoc, singleton_append]

/-- **One step.** -/
theorem Tracked.step (hx : x.Tracked) {op : RubyPortOp P g} (hop : x.Polite op)
    (h : x.step isMemAddr op = .ok y) : y.Tracked := by
  cases op with
  | recvTimingReq port pkt =>
    obtain ⟨⟨z, accepted⟩, hreq, h⟩ := Except.bind_eq_ok h
    cases h
    rcases recvTimingReq_cases hreq with ⟨rfl, rfl⟩ | ⟨rfl, hfree, s, r, hinsert, rfl⟩ |
      ⟨rfl, rfl, hwhy⟩
    · exact hx.accept hop hx.served hx.due
    · refine hx.accept hop (hx.served.insertRequest hfree hinsert) fun _ => .inl ?_
      show 1 ≤ s.outstandingCount
      rw [(Sequencer.insertRequest_ready hinsert).1]
      omega
    · have hwaiting : (x.addToRetryList port).waiting = x.waiting := by
        unfold addToRetryList
        split <;> rfl
      show Tracked { x.addToRetryList port with
        waiting := update (x.addToRetryList port).waiting port true }
      rw [hwaiting]
      exact hx.refuse hop (hx.served.due hwhy)
  | writeCallback a =>
    obtain ⟨⟨s, r, block⟩, hcallback, h⟩ := Except.bind_eq_ok h
    exact hx.hit hop (hx.served.writeCallback hcallback) h
  | readCallback a =>
    obtain ⟨done, hcallback, h⟩ := Except.bind_eq_ok h
    rcases done with _ | ⟨s, r, block⟩
    · cases h
      exact hx
    · exact hx.hit hop (hx.served.readCallback hcallback) h
  | sendRetryReq =>
    rcases hlist : x.curRetryList with _ | ⟨port, rest⟩
    · simp only [RubyPort.step, hlist] at h
      cases h
      exact hx
    · simp only [RubyPort.step, hlist] at h
      cases h
      exact hx.sendRetryReq hlist
  | cacheOp op =>
    obtain ⟨z, hcache, h⟩ := Except.bind_eq_ok h
    cases h
    obtain ⟨hserved, hcount, hhits, hmap⟩ := hx.served.cacheOp hcache
    refine ⟨hserved, hx.once, hx.retried, fun hne => ?_⟩
    rcases hx.due hne with hout | ⟨a, hlock, -⟩
    · exact .inl (hcount ▸ hout)
    · -- the pair is open as before, and with it the line is blocked
      have hlock' : z.HoldsLock a := by
        unfold SequencerRun.HoldsLock
        rw [hhits]
        exact hlock
      exact .inr ⟨a, hlock',
        hserved.blocking.isBlocked_iff.mpr ((hserved.locked a).mpr hlock')⟩

theorem Tracked.noLostRetry (hx : x.Tracked) : x.NoLostRetry isMemAddr where
  once p hp := by
    rw [hx.once p, if_pos hp]
  inList hidle p hp := by
    have honce := hx.once p
    rw [if_pos hp, hidle] at honce
    exact honce
  waits p hp := (hx.waiting_iff p).mpr hp
  served := hx.retried
  counted := hx.served.counted
  single := hx.served.single
  due := hx.due
  closes hfree port pkt ht hinhibit hsize := by
    obtain ⟨s, hs⟩ := Sequencer.makeRequest_locked_write hx.served.counted hfree ht
    unfold recvTimingReq
    rw [if_neg (Bool.eq_false_iff.mp hinhibit)]
    by_cases hmem : isMemAddr pkt.addr = false
    · exact ⟨x, if_pos hmem⟩
    · rw [if_neg hmem, if_pos hsize, hs]
      exact ⟨_, rfl⟩

theorem tracked_initial (version : ℕ) (cache : CacheMemory g Unit)
    (blocks : Address → DataBlock g.blockSizeBytes) :
    Tracked (P := P) { sequencer := ⟨{ version := version, dataCache := cache }, blocks, []⟩ } := by
  refine ⟨⟨⟨rfl, ?_, ?_⟩, rfl, Nat.zero_le 1, ⟨nodup_nil, rfl⟩, fun a => ?_⟩, fun p => rfl,
    rfl, fun hne => absurd rfl hne⟩
  · intro a r hr
    cases hr
  · intro a r hr
    cases hr
  · refine iff_of_false not_mem_nil ?_
    rintro ⟨newer, r, older, hhits, -⟩
    exact append_ne_nil_of_right_ne_nil newer (cons_ne_nil r older) hhits.symm

end RubyPort

/-- **No retry is lost.**  Whatever the ports and the controller do, a refused port stays listed
once until it is sent a retry, every hit callback sends a retry to all ports then listed, and
while a port is listed another hit callback is to come. -/
theorem ruby_port_no_lost_retry {P : Type} [DecidableEq P] (g : CacheParams)
    (isMemAddr : Address → Bool) (version : ℕ) (cache : CacheMemory g Unit)
    (blocks : Address → DataBlock g.blockSizeBytes) (ops : List (RubyPortOp P g))
    (x : RubyPort P g)
    (h : Runs (Within (RubyPort.step isMemAddr) RubyPort.Polite)
      { sequencer := ⟨{ version := version, dataCache := cache }, blocks, []⟩ } ops x) :
    x.NoLostRetry isMemAddr := by
  refine (h.invariant (P := RubyPort.Tracked) ?_
    (RubyPort.tracked_initial version cache blocks)).noLostRetry
  rintro x op y hx ⟨hop, hstep⟩
  exact hx.step hop hstep

/-- Port `q` is refused behind the `Locked_RMW_Read` of port `p`, sent a retry, and refused again
from inside `sendRetryReq`, now because the line is blocked. -/
def lockedPairOps {P : Type} (p q : P) : List (RubyPortOp P smallCache) :=
  [.cacheOp (.allocate 0x40 ()),
    .recvTimingReq p { addr := 0x40, data := [0], isRead := true, isLockedRMW := true },
    .recvTimingReq q { addr := 0x48, data := [0], isRead := true },
    .writeCallback 0x40, .sendRetryReq,
    .recvTimingReq q { addr := 0x48, data := [0], isRead := true }]

theorem ruby_port_no_lost_retry_blocked_line :
    ∃ x, Runs (Within (RubyPort.step fun _ => true) RubyPort.Polite)
        { sequencer := ⟨{ version := 0, dataCache := {} }, fun _ _ => 0, []⟩ }
        (lockedPairOps (0 : Fin 2) 1) x ∧
      (x.retryList = [1] ∧ x.sequencer.seq.outstandingCount = 0) ∧
      x.NoLostRetry fun _ => true := by
  refine exists_runs_and_of_execWithin (by decide +kernel) ?_
  intro x hrun _
  exact ruby_port_no_lost_retry _ _ _ _ _ _ x hrun
