/-
# Functional accesses

`Packet::checkFunctional` (`src/mem/packet.cc`): a functional access goes past
all the places that may hold its data.  A read collects bytes: every place that
overlaps the packet passes its buffer, the bytes are copied, and `bytesValid`
remembers which bytes of the packet have come, so that the call that brings the
last one returns true.

A buffer that sticks out of the packet on one side is copied without the last
byte of the overlap, since the end addresses are inclusive.  And a buffer that
covers the packet does not set `bytesValid` if this has been started, so later
calls do not know that the packet is complete.  `functional_read_assembles` is
about the calls for which neither matters.

The bytes are of any type.  What a packet needs besides, and the printing of the
object, is left out.

* `FunctionalPacket.checkFunctional` — the function.
* `Assembly`                         — a read with the buffers passed so far.
-/
import Gem5.TransitionSystem
import Mathlib

open List

/-! ## The function -/

inductive FunctionalCmd
  | print
  | read
  | write
  deriving DecidableEq, Repr

structure FunctionalPacket (β : Type) where
  cmd : FunctionalCmd
  addr : ℕ
  size : ℕ
  isSecure : Bool
  data : List β
  bytesValid : List Bool := []

variable {β : Type}

/-- `memcpy(dst + dstOffset, src + srcOffset, size)`. -/
def memcpy (dst : List β) (dstOffset : ℕ) (src : List β) (srcOffset size : ℕ) :
    Except Abort (List β) :=
  if dstOffset + size ≤ dst.length ∧ srcOffset + size ≤ src.length then
    .ok (dst.take dstOffset ++ (src.drop srcOffset).take size ++ dst.drop (dstOffset + size))
  else .error .undefined

/-- `addr + size - 1` on 64-bit addresses. -/
def endAddr (addr size : ℕ) : ℕ := (addr + size + (2 ^ 64 - 1)) % 2 ^ 64

/-- `func_offset`, `val_offset` and `overlap_size`, which are of type `int`. -/
structure PartialOverlap where
  funcOffset : ℕ
  valOffset : ℕ
  overlapSize : ℕ
  deriving DecidableEq, Repr

def partialOverlap (funcStart funcEnd valStart valEnd size : ℕ) : Except Abort PartialOverlap :=
  if valStart < funcStart ∧ valEnd ≤ funcEnd then
    .ok ⟨0, funcStart - valStart, valEnd - funcStart⟩
  else if valStart ≥ funcStart ∧ valEnd > funcEnd then
    .ok ⟨valStart - funcStart, 0, funcEnd - valStart⟩
  else if valStart ≥ funcStart ∧ valEnd ≤ funcEnd then
    .ok ⟨valStart - funcStart, 0, size⟩
  else if valStart < funcStart ∧ valEnd > funcEnd then
    .ok ⟨0, funcStart - valStart, funcEnd - funcStart⟩
  else .error .assertion

/-- A value that an `int` holds; others are converted to something else. -/
def asInt (x : ℕ) : Except Abort ℕ := if x < 2 ^ 31 then .ok x else .error .undefined

namespace FunctionalPacket

variable (p : FunctionalPacket β)

/-- The packet is a read and overlaps the buffer in part. -/
def readPart (o : PartialOverlap) (buffer : List β) :
    Except Abort (FunctionalPacket β × Bool) := do
  let funcOffset ← asInt o.funcOffset
  let valOffset ← asInt o.valOffset
  let overlapSize ← asInt o.overlapSize
  let data ← memcpy p.data funcOffset buffer valOffset overlapSize
  let valid := if p.bytesValid = [] then List.replicate p.size false else p.bytesValid
  let valid' ← memcpy valid funcOffset (List.replicate overlapSize true) 0 overlapSize
  pure ({ p with data := data, bytesValid := valid' },
    (valid.take funcOffset).all id && (valid'.drop (funcOffset + overlapSize)).all id)

/-- The packet is a read and overlaps the buffer. -/
def readBuffer (valStart valEnd size : ℕ) (buffer : List β) :
    Except Abort (FunctionalPacket β × Bool) :=
  if p.addr ≥ valStart ∧ endAddr p.addr p.size ≤ valEnd then do
    let offset ← asInt (p.addr - valStart)
    let data ← memcpy p.data 0 buffer offset p.size
    pure
      ({ p with
        data := data
        bytesValid := if p.bytesValid = [] then List.replicate p.size true else p.bytesValid },
        true)
  else do
    let o ← partialOverlap p.addr (endAddr p.addr p.size) valStart valEnd size
    p.readPart o buffer

/-- The packet is a write and overlaps the buffer. -/
def writeBuffer (valStart valEnd : ℕ) (buffer : List β) :
    Except Abort (List β) :=
  if p.addr ≥ valStart then do
    let offset ← asInt (p.addr - valStart)
    memcpy buffer offset p.data 0 (min (endAddr p.addr p.size) valEnd - p.addr + 1)
  else do
    let offset ← asInt (valStart - p.addr)
    memcpy buffer 0 p.data offset (min (endAddr p.addr p.size) valEnd - valStart + 1)

/-- `checkFunctional`, with the packet and the buffer that it leaves. -/
def checkFunctional (addr : ℕ) (isSecure : Bool) (size : ℕ)
    (buffer : Option (List β)) : Except Abort (FunctionalPacket β × Option (List β) × Bool) :=
  if isSecure ≠ p.isSecure ∨ p.addr > endAddr addr size ∨ addr > endAddr p.addr p.size then
    .ok (p, buffer, false)
  else
    match p.cmd, buffer with
    | .print, none => .ok (p, none, false)
    | .print, some _ => .error .assertion
    | _, none => .ok (p, none, false)
    | .read, some buffer => do
      let r ← p.readBuffer addr (endAddr addr size) size buffer
      pure (r.1, some buffer, r.2)
    | .write, some buffer => do
      let buffer ← p.writeBuffer addr (endAddr addr size) buffer
      pure (p, some buffer, false)

end FunctionalPacket

/-! ## Collecting bytes -/

/-- A buffer: its address and its bytes. -/
abbrev Buffer (β : Type) := ℕ × List β

/-- The byte that the buffer has for the address. -/
def Buffer.byte (c : Buffer β) (x : ℕ) : Option β := if c.1 ≤ x then c.2[x - c.1]? else none

/-- The byte of the last buffer that has one for the address. -/
def lastByte (passed : List (Buffer β)) (x : ℕ) : Option β :=
  passed.foldl (fun last c => (c.byte x).or last) none

/-- A read packet with the buffers that it was checked against, and the last result. -/
structure Assembly (β : Type) where
  packet : FunctionalPacket β
  passed : List (Buffer β) := []
  last : Option Bool := none

namespace Assembly

def step (s : Assembly β) (c : Buffer β) : Except Abort (Assembly β) := do
  let r ← s.packet.checkFunctional c.1 s.packet.isSecure c.2.length (some c.2)
  pure { packet := r.1, passed := s.passed ++ [c], last := some r.2.2 }

/-- The byte at the offset has been passed. -/
def Collected (s : Assembly β) (i : ℕ) : Prop :=
  (lastByte s.passed (s.packet.addr + i)).isSome = true

/-- **A read that is assembled right**: each byte is the last that was passed for it, and a buffer
that overlaps completes the packet exactly if all bytes were passed. -/
structure Assembled (original : List β) (s : Assembly β) : Prop where
  data : ∀ i < s.packet.size,
    s.packet.data[i]? = (lastByte s.passed (s.packet.addr + i)).or original[i]?
  result : ∀ c ∈ s.passed.getLast?, (∃ i < s.packet.size, (c.byte (s.packet.addr + i)).isSome) →
    (s.last = some true ↔ ∀ i < s.packet.size, s.Collected i)

/-- A buffer of at least one byte, of a size that an `int` holds, in the address space. -/
structure Ranged (_ : Assembly β) (c : Buffer β) : Prop where
  nonempty : c.2 ≠ []
  size_lt : c.2.length < 2 ^ 31
  inSpace : c.1 + c.2.length ≤ 2 ^ 64

/-- The byte at the offset has come, and it is the one of the buffer. -/
def Known (s : Assembly β) (c : Buffer β) (i : ℕ) : Prop :=
  s.packet.bytesValid[i]? = some true ∧ s.packet.data[i]? = c.byte (s.packet.addr + i)

/-- **Buffers that are handled right**: where the last byte of the overlap is not copied, it is
there already, and a buffer that covers the packet comes first or after all bytes. -/
structure Clean (s : Assembly β) (c : Buffer β) : Prop extends Ranged s c where
  left : c.1 < s.packet.addr ∧ s.packet.addr < c.1 + c.2.length ∧
      c.1 + c.2.length < s.packet.addr + s.packet.size →
    s.Known c (c.1 + c.2.length - 1 - s.packet.addr)
  right : s.packet.addr < c.1 ∧ c.1 < s.packet.addr + s.packet.size ∧
      s.packet.addr + s.packet.size < c.1 + c.2.length →
    s.Known c (s.packet.size - 1)
  cover : c.1 ≤ s.packet.addr ∧ s.packet.addr + s.packet.size ≤ c.1 + c.2.length →
    ∀ b ∈ s.packet.bytesValid, b = true

instance (s : Assembly β) (c : Buffer β) : Decidable (s.Ranged c) :=
  decidable_of_iff (c.2.length ≠ 0 ∧ c.2.length < 2 ^ 31 ∧ c.1 + c.2.length ≤ 2 ^ 64)
    ⟨fun h => ⟨fun hnil => h.1 (by rw [hnil]; rfl), h.2.1, h.2.2⟩,
      fun h => ⟨mt List.length_eq_zero_iff.mp h.nonempty, h.size_lt, h.inSpace⟩⟩

instance [DecidableEq β] (s : Assembly β) (c : Buffer β) (i : ℕ) : Decidable (s.Known c i) :=
  inferInstanceAs (Decidable (_ ∧ _))

instance [DecidableEq β] (s : Assembly β) (c : Buffer β) : Decidable (s.Clean c) :=
  decidable_of_iff _ ⟨fun h : _ ∧ _ ∧ _ ∧ _ => Clean.mk h.1 h.2.1 h.2.2.1 h.2.2.2,
    fun h => ⟨h.toRanged, h.left, h.right, h.cover⟩⟩

end Assembly

/-! ## Copies -/

theorem memcpy_ok (dst : List β) (dstOffset : ℕ) (src : List β) (srcOffset size : ℕ)
    (hdst : dstOffset + size ≤ dst.length) (hsrc : srcOffset + size ≤ src.length) :
    ∃ l, memcpy dst dstOffset src srcOffset size = .ok l ∧ l.length = dst.length ∧
      ∀ i, l[i]? = if dstOffset ≤ i ∧ i < dstOffset + size then src[srcOffset + (i - dstOffset)]?
        else dst[i]? := by
  refine ⟨_, if_pos ⟨hdst, hsrc⟩, ?_, fun i => ?_⟩
  · simp only [length_append, length_take, length_drop]
    omega
  · have htake : (dst.take dstOffset).length = dstOffset := by
      rw [length_take]
      omega
    have hmiddle : ((src.drop srcOffset).take size).length = size := by
      rw [length_take, length_drop]
      omega
    by_cases hlow : i < dstOffset
    · rw [if_neg (by omega), append_assoc, getElem?_append_left (by omega),
        getElem?_take_of_lt hlow]
    · by_cases hhigh : i < dstOffset + size
      · rw [if_pos ⟨not_lt.mp hlow, hhigh⟩, append_assoc,
          getElem?_append_right (by omega), htake, getElem?_append_left (by omega),
          getElem?_take_of_lt (by omega), getElem?_drop]
      · rw [if_neg (by omega), getElem?_append_right (by simp only [length_append]; omega),
          length_append, getElem?_drop]
        congr 1
        omega

theorem asInt_ok {x : ℕ} (h : x < 2 ^ 31) : asInt x = .ok x := if_pos h

theorem endAddr_eq {addr size : ℕ} (hpos : 0 < size) (h : addr + size ≤ 2 ^ 64) :
    endAddr addr size = addr + size - 1 := by
  unfold endAddr
  omega

theorem Buffer.byte_eq_none_iff {c : Buffer β} {x : ℕ} :
    c.byte x = none ↔ x < c.1 ∨ c.1 + c.2.length ≤ x := by
  unfold Buffer.byte
  split
  · rw [getElem?_eq_none_iff]
    omega
  · constructor
    · omega
    · intro _
      rfl

theorem Buffer.isSome_byte {c : Buffer β} {x : ℕ} :
    (c.byte x).isSome = true ↔ c.1 ≤ x ∧ x < c.1 + c.2.length := by
  rw [Option.isSome_iff_ne_none, Ne, Buffer.byte_eq_none_iff]
  omega

theorem Buffer.byte_eq {c : Buffer β} {x : ℕ} (h : c.1 ≤ x) : c.byte x = c.2[x - c.1]? := if_pos h

theorem all_id_iff (l : List Bool) : l.all id = true ↔ ∀ i < l.length, l[i]? = some true := by
  rw [all_eq_true]
  constructor
  · intro h i hi
    rw [getElem?_eq_getElem hi]
    exact congrArg some (h _ (getElem_mem hi))
  · intro h b hb
    obtain ⟨i, hi, rfl⟩ := mem_iff_getElem.mp hb
    have := h i hi
    rw [getElem?_eq_getElem hi] at this
    exact Option.some.inj this

/-- Marks of which those from `lo` to `hi` have been set: with the ones before, in the old list,
and the ones after, in the new list, all are set. -/
theorem all_around_iff {valid valid' : List Bool} {lo hi : ℕ} (hlo : lo ≤ hi)
    (hhi : hi ≤ valid.length) (hlength : valid'.length = valid.length)
    (hset : ∀ i, lo ≤ i → i < hi → valid'[i]? = some true)
    (hkeep : ∀ i < lo, valid'[i]? = valid[i]?) :
    ((valid.take lo).all id && (valid'.drop hi).all id) = true ↔
      ∀ i < valid.length, valid'[i]? = some true := by
  rw [Bool.and_eq_true, all_id_iff, all_id_iff, length_take, length_drop, min_eq_left (by omega)]
  constructor
  · rintro ⟨hbefore, hafter⟩ i hi'
    by_cases hlow : i < lo
    · have := hbefore i hlow
      rwa [getElem?_take_of_lt hlow, ← hkeep i hlow] at this
    · by_cases hhigh : i < hi
      · exact hset i (by omega) hhigh
      · have := hafter (i - hi) (by omega)
        rwa [getElem?_drop, Nat.add_sub_cancel' (by omega)] at this
  · intro hall
    constructor
    · intro i hi'
      rw [getElem?_take_of_lt hi', ← hkeep i hi']
      exact hall i (by omega)
    · intro i hi'
      rw [getElem?_drop]
      exact hall _ (by omega)

namespace FunctionalPacket

/-- The byte of the packet is marked. -/
def valid (p : FunctionalPacket β) (i : ℕ) : Bool := p.bytesValid[i]?.getD false

/-- A packet in the address space, with all its bytes. -/
structure WellFormed (p : FunctionalPacket β) : Prop where
  cmd : p.cmd = .read
  size_pos : 0 < p.size
  size_lt : p.size < 2 ^ 31
  inSpace : p.addr + p.size ≤ 2 ^ 64
  data : p.data.length = p.size
  bytesValid : p.bytesValid = [] ∨ p.bytesValid.length = p.size

/-- What a buffer should do to a packet that it overlaps. -/
structure Merged (p : FunctionalPacket β) (c : Buffer β) (r : FunctionalPacket β × Bool) : Prop where
  wellFormed : r.1.WellFormed
  addr : r.1.addr = p.addr
  size : r.1.size = p.size
  isSecure : r.1.isSecure = p.isSecure
  data : ∀ i < p.size, r.1.data[i]? = (c.byte (p.addr + i)).or p.data[i]?
  valid : ∀ i < p.size, r.1.bytesValid[i]? = some ((c.byte (p.addr + i)).isSome || p.valid i)
  result : r.2 = true ↔ ∀ i < p.size, r.1.bytesValid[i]? = some true

/-- The marks before the copy, all of them there. -/
theorem WellFormed.startedValid {p : FunctionalPacket β} (h : p.WellFormed) :
    let valid := if p.bytesValid = [] then replicate p.size false else p.bytesValid
    valid.length = p.size ∧ ∀ i < p.size, valid[i]? = some (p.valid i) := by
  split
  · rename_i hnil
    refine ⟨length_replicate, fun i hi => ?_⟩
    rw [getElem?_replicate, if_pos hi, FunctionalPacket.valid, hnil]
    rfl
  · rename_i hne
    have hlength : p.bytesValid.length = p.size := h.bytesValid.resolve_left hne
    refine ⟨hlength, fun i hi => ?_⟩
    rw [FunctionalPacket.valid, getElem?_eq_getElem (hlength.symm ▸ hi)]
    rfl

/-- **A partial overlap** that copies all of it, up to bytes that are there already. -/
theorem WellFormed.readPart {p : FunctionalPacket β} (h : p.WellFormed) {c : Buffer β}
    (hc : c.2.length < 2 ^ 31) {func val size : ℕ} (hfunc : func + size ≤ p.size)
    (hval : val + size ≤ c.2.length) (halign : p.addr + func = c.1 + val)
    (hrest : ∀ i < p.size, (c.byte (p.addr + i)).isSome → (func ≤ i ∧ i < func + size) ∨
      p.valid i = true ∧ p.data[i]? = c.byte (p.addr + i)) :
    ∃ r, p.readPart ⟨func, val, size⟩ c.2 = .ok r ∧ p.Merged c r := by
  have hsize := h.size_lt
  obtain ⟨hlength, hvalid⟩ := h.startedValid
  obtain ⟨data, hdata, hdataLength, hdataGet⟩ :=
    memcpy_ok p.data func c.2 val size (h.data.symm ▸ hfunc) hval
  generalize hstart : (if p.bytesValid = [] then replicate p.size false else p.bytesValid) =
    valid at hlength hvalid
  obtain ⟨valid', hvalid', hvalidLength, hvalidGet⟩ :=
    memcpy_ok valid func (replicate size true) 0 size (hlength.symm ▸ hfunc)
      (by rw [length_replicate]; omega)
  -- the bytes that are copied are in the buffer
  have hbyte : ∀ i, func ≤ i → i < func + size →
      c.byte (p.addr + i) = c.2[val + (i - func)]? := by
    intro i hlo hhi
    rw [Buffer.byte_eq (by omega)]
    congr 1
    omega
  have hsome : ∀ i, func ≤ i → i < func + size → (c.byte (p.addr + i)).isSome = true := by
    intro i hlo hhi
    rw [Buffer.isSome_byte]
    omega
  have hset : ∀ i, func ≤ i → i < func + size → valid'[i]? = some true := by
    intro i hlo hhi
    rw [hvalidGet i, if_pos ⟨hlo, hhi⟩, getElem?_replicate, if_pos (by omega)]
  have hmark : ∀ i < p.size, valid'[i]? = some ((c.byte (p.addr + i)).isSome || p.valid i) := by
    intro i hi
    by_cases hin : func ≤ i ∧ i < func + size
    · rw [hset i hin.1 hin.2, hsome i hin.1 hin.2]
      rfl
    · rw [hvalidGet i, if_neg hin, hvalid i hi]
      cases hb : (c.byte (p.addr + i)).isSome with
      | false => rfl
      | true =>
        obtain ⟨hv, -⟩ := (hrest i hi hb).resolve_left hin
        rw [hv]
        rfl
  refine ⟨({ p with data := data, bytesValid := valid' },
    (valid.take func).all id && (valid'.drop (func + size)).all id), ?_,
    ⟨h.cmd, h.size_pos, h.size_lt, h.inSpace, hdataLength.trans h.data,
      .inr (hvalidLength.trans hlength)⟩, rfl, rfl, rfl, fun i hi => ?_, hmark, ?_⟩
  · unfold FunctionalPacket.readPart
    simp only [asInt_ok (show func < 2 ^ 31 by omega), asInt_ok (show val < 2 ^ 31 by omega),
      asInt_ok (show size < 2 ^ 31 by omega), hdata, hstart, hvalid', bind, Except.bind, pure,
      Except.pure]
  · show data[i]? = _
    rw [hdataGet i]
    by_cases hin : func ≤ i ∧ i < func + size
    · rw [if_pos hin, ← hbyte i hin.1 hin.2]
      exact (Option.or_of_isSome (hsome i hin.1 hin.2)).symm
    · rw [if_neg hin]
      cases hb : c.byte (p.addr + i) with
      | none => rfl
      | some b =>
        obtain ⟨-, hd⟩ := (hrest i hi (by rw [hb]; rfl)).resolve_left hin
        rw [hd, hb]
        rfl
  · -- the two loops look at the marks around the copy
    rw [← hlength]
    refine all_around_iff (by omega) (by omega) hvalidLength hset fun i hi => ?_
    rw [hvalidGet i, if_neg (by omega)]

/-- **A buffer that covers the packet** with no marks or with all. -/
theorem WellFormed.readCover {p : FunctionalPacket β} (h : p.WellFormed) {c : Buffer β}
    (hc : c.2.length < 2 ^ 31) (hlo : c.1 ≤ p.addr) (hhi : p.addr + p.size ≤ c.1 + c.2.length)
    (hspace : c.1 + c.2.length ≤ 2 ^ 64) (hmarks : ∀ b ∈ p.bytesValid, b = true) :
    ∃ r, p.readBuffer c.1 (endAddr c.1 c.2.length) c.2.length c.2 = .ok r ∧ p.Merged c r := by
  have hpos := h.size_pos
  obtain ⟨data, hdata, hdataLength, hdataGet⟩ :=
    memcpy_ok p.data 0 c.2 (p.addr - c.1) p.size (by rw [h.data, zero_add]) (by omega)
  generalize hstart : (if p.bytesValid = [] then replicate p.size true else p.bytesValid) =
    valid
  have hall : valid.length = p.size ∧ ∀ i < p.size, valid[i]? = some true := by
    rw [← hstart]
    split
    · refine ⟨length_replicate, fun i hi => ?_⟩
      rw [getElem?_replicate, if_pos hi]
    · rename_i hne
      have hlength := h.bytesValid.resolve_left hne
      refine ⟨hlength, fun i hi => ?_⟩
      rw [getElem?_eq_getElem (hlength.symm ▸ hi)]
      exact congrArg some (hmarks _ (getElem_mem _))
  have hsome : ∀ i < p.size, (c.byte (p.addr + i)).isSome = true := by
    intro i hi
    rw [Buffer.isSome_byte]
    omega
  refine ⟨({ p with data := data, bytesValid := valid }, true), ?_,
    ⟨h.cmd, h.size_pos, h.size_lt, h.inSpace, hdataLength.trans h.data, .inr hall.1⟩, rfl, rfl,
    rfl, fun i hi => ?_, fun i hi => ?_, fun _ => hall.2, fun _ => rfl⟩
  · unfold readBuffer
    rw [endAddr_eq hpos h.inSpace, endAddr_eq (by omega) hspace, if_pos (by omega)]
    simp only [asInt_ok (show p.addr - c.1 < 2 ^ 31 by omega), hdata, hstart, bind, Except.bind, pure,
      Except.pure]
  · show data[i]? = _
    rw [Option.or_of_isSome (hsome i hi), hdataGet i, if_pos (by omega), Buffer.byte_eq (by omega)]
    congr 1
    omega
  · show valid[i]? = _
    rw [hall.2 i hi, hsome i hi]
    rfl

end FunctionalPacket

namespace Assembly

open FunctionalPacket

variable {s : Assembly β} {c : Buffer β}

theorem Known.valid {i : ℕ} (h : s.Known c i) :
    s.packet.valid i = true ∧ s.packet.data[i]? = c.byte (s.packet.addr + i) := by
  refine ⟨?_, h.2⟩
  rw [FunctionalPacket.valid, h.1]
  rfl

/-- A buffer that overlaps the packet, in every position. -/
theorem Clean.readBuffer (hc : s.Clean c) (h : s.packet.WellFormed)
    (hlo : c.1 < s.packet.addr + s.packet.size) (hhi : s.packet.addr < c.1 + c.2.length) :
    ∃ r, s.packet.readBuffer c.1 (endAddr c.1 c.2.length) c.2.length c.2 = .ok r ∧
      s.packet.Merged c r := by
  have hpos := h.size_pos
  have hlen := hc.size_lt
  have hlenPos : 0 < c.2.length := length_pos_iff.mpr hc.nonempty
  by_cases hcover : c.1 ≤ s.packet.addr ∧ s.packet.addr + s.packet.size ≤ c.1 + c.2.length
  · exact h.readCover hc.size_lt hcover.1 hcover.2 hc.inSpace (hc.cover hcover)
  · unfold FunctionalPacket.readBuffer
    rw [endAddr_eq hpos h.inSpace, endAddr_eq hlenPos hc.inSpace, if_neg (by omega), partialOverlap]
    by_cases hleft : c.1 < s.packet.addr
    · -- the buffer sticks out on the left
      rw [if_pos (by omega)]
      have hknown := hc.left ⟨hleft, hhi, by omega⟩
      dsimp only [bind, Except.bind]
      refine h.readPart hlen (by omega) (by omega) (by omega) fun i hi hb => ?_
      rw [Buffer.isSome_byte] at hb
      by_cases hmissed : i = c.1 + c.2.length - 1 - s.packet.addr
      · exact .inr (hmissed ▸ hknown.valid)
      · exact .inl (by omega)
    · rw [if_neg (by omega)]
      by_cases hright : s.packet.addr + s.packet.size < c.1 + c.2.length
      · -- the buffer sticks out on the right
        rw [if_pos (by omega)]
        have hknown := hc.right ⟨by omega, hlo, hright⟩
        dsimp only [bind, Except.bind]
        refine h.readPart hlen (by omega) (by omega) (by omega) fun i hi hb => ?_
        rw [Buffer.isSome_byte] at hb
        by_cases hmissed : i = s.packet.size - 1
        · exact .inr (hmissed ▸ hknown.valid)
        · exact .inl (by omega)
      · -- the buffer is inside the packet
        rw [if_neg (by omega), if_pos (by omega)]
        dsimp only [bind, Except.bind]
        refine h.readPart hlen (by omega) (by omega) (by omega) fun i hi hb => .inl ?_
        rw [Buffer.isSome_byte] at hb
        omega

theorem lastByte_concat (passed : List (Buffer β)) (c : Buffer β) (x : ℕ) :
    lastByte (passed ++ [c]) x = (c.byte x).or (lastByte passed x) := by
  simp [lastByte]

/-- The invariant of a run: the marks are right. -/
structure Tracked (original : List β) (s : Assembly β) : Prop extends Assembled original s where
  wellFormed : s.packet.WellFormed
  marks : ∀ i < s.packet.size,
    s.packet.valid i = (lastByte s.passed (s.packet.addr + i)).isSome

/-- **One call**: it returns, and the read is assembled right. -/
theorem Tracked.step {original : List β} (h : Tracked original s) (hc : s.Clean c) :
    ∃ t, s.step c = .ok t ∧ Tracked original t := by
  have hwf := h.wellFormed
  have hpos := hwf.size_pos
  have hlenPos : 0 < c.2.length := length_pos_iff.mpr hc.nonempty
  by_cases hoverlap : c.1 < s.packet.addr + s.packet.size ∧ s.packet.addr < c.1 + c.2.length
  · obtain ⟨r, hr, hmerged⟩ := hc.readBuffer hwf hoverlap.1 hoverlap.2
    have hcheck : s.packet.checkFunctional c.1 s.packet.isSecure c.2.length (some c.2) =
        .ok (r.1, some c.2, r.2) := by
      unfold FunctionalPacket.checkFunctional
      rw [endAddr_eq hpos hwf.inSpace, if_neg (by rw [endAddr_eq hlenPos hc.inSpace]; simp; omega),
        hwf.cmd]
      simp only [hr, bind, Except.bind, pure, Except.pure]
    have hmark : ∀ i < s.packet.size, r.1.bytesValid[i]? =
        some (lastByte (s.passed ++ [c]) (s.packet.addr + i)).isSome := by
      intro i hi
      rw [hmerged.valid i hi, h.marks i hi, lastByte_concat, Option.isSome_or]
    refine ⟨⟨r.1, s.passed ++ [c], some r.2⟩, ?_, ⟨⟨fun i hi => ?_, ?_⟩, hmerged.wellFormed,
      fun i hi => ?_⟩⟩
    · unfold Assembly.step
      rw [hcheck]
      rfl
    · dsimp only at hi ⊢
      rw [hmerged.size] at hi
      rw [hmerged.addr, hmerged.data i hi, h.data i hi, lastByte_concat, Option.or_assoc]
    · intro _ _ _
      unfold Collected
      dsimp only
      rw [hmerged.size, hmerged.addr, Option.some.injEq, hmerged.result]
      constructor
      · intro hall i hi
        have := hall i hi
        rw [hmark i hi] at this
        exact Option.some.inj this
      · intro hall i hi
        rw [hmark i hi, hall i hi]
    · dsimp only at hi ⊢
      rw [hmerged.size] at hi
      rw [FunctionalPacket.valid, hmerged.addr, hmark i hi]
      rfl
  · -- the buffer has no byte of the packet
    have hnone : ∀ i < s.packet.size, c.byte (s.packet.addr + i) = none := by
      intro i hi
      rw [Buffer.byte_eq_none_iff]
      omega
    have hcheck : s.packet.checkFunctional c.1 s.packet.isSecure c.2.length (some c.2) =
        .ok (s.packet, some c.2, false) := by
      unfold FunctionalPacket.checkFunctional
      rw [endAddr_eq hpos hwf.inSpace, if_pos (by rw [endAddr_eq hlenPos hc.inSpace]; omega)]
    refine ⟨⟨s.packet, s.passed ++ [c], some false⟩, ?_, ⟨⟨fun i hi => ?_, ?_⟩, hwf, fun i hi => ?_⟩⟩
    · unfold Assembly.step
      rw [hcheck]
      rfl
    · rw [lastByte_concat, hnone i hi, Option.none_or]
      exact h.data i hi
    · rintro c' hc' ⟨i, hi, hsome⟩
      rw [getLast?_concat] at hc'
      cases hc'
      rw [hnone i hi] at hsome
      cases hsome
    · rw [lastByte_concat, hnone i hi, Option.none_or]
      exact h.marks i hi

/-- A read packet before any call. -/
def start (addr : ℕ) (isSecure : Bool) (data : List β) : Assembly β :=
  { packet := { cmd := .read, addr := addr, size := data.length, isSecure := isSecure, data := data } }

theorem tracked_start {addr : ℕ} {isSecure : Bool} {data : List β} (hpos : data ≠ [])
    (hsize : data.length < 2 ^ 31) (hspace : addr + data.length ≤ 2 ^ 64) :
    Tracked data (start addr isSecure data) where
  data := fun _ _ => rfl
  result := fun c hc => by cases hc
  wellFormed := ⟨rfl, length_pos_iff.mpr hpos, hsize, hspace, rfl, .inl rfl⟩
  marks := fun _ _ => rfl

end Assembly

/-- **Functional reads.**  In every run of calls that are handled right, every call returns, the
bytes are the last ones passed, and a call that overlaps the packet returns true exactly if every
byte was passed. -/
theorem functional_read_assembles {addr : ℕ} {isSecure : Bool} {data : List β}
    (hpos : data ≠ []) (hsize : data.length < 2 ^ 31) (hspace : addr + data.length ≤ 2 ^ 64)
    {calls : List (Buffer β)} {s : Assembly β}
    (h : Runs (Within Assembly.step Assembly.Clean) (Assembly.start addr isSecure data) calls s) :
    s.Assembled data ∧ ∀ c, s.Clean c → ∃ t, s.step c = .ok t := by
  have htracked : s.Tracked data :=
    h.invariant_of_progress (fun _ _ hs hc => hs.step hc) (Assembly.tracked_start hpos hsize hspace)
  exact ⟨htracked.toAssembled, fun c hc => (htracked.step hc).imp fun _ ht => ht.1⟩

theorem functional_read_assembles_two_halves :
    ∃ s : Assembly ℕ, Runs (Within Assembly.step Assembly.Clean)
      (Assembly.start 100 false [0, 0, 0, 0]) [(102, [7, 8]), (100, [5, 6])] s ∧
      s.last = some true ∧ s.Assembled [0, 0, 0, 0] := by
  refine exists_runs_and_of_execWithin (by decide +kernel) ?_
  intro s hs _
  exact (functional_read_assembles (by decide) (by decide) (by decide) hs).1

/-- A packet over the addresses 100 to 103.  A buffer over 98 to 101 brings the byte at 100 and not
the one at 101.  And after one byte and a buffer that covers the packet, which completes it, one
more byte is said not to. -/
theorem functional_read_misses_byte :
    (∃ s : Assembly ℕ, Runs (Within Assembly.step Assembly.Ranged)
      (Assembly.start 100 false [0, 0, 0, 0]) [(98, [1, 2, 3, 4])] s ∧
      s.packet.data = [3, 0, 0, 0] ∧ lastByte s.passed 101 = some 4) ∧
    ∃ s : Assembly ℕ, Runs (Within Assembly.step Assembly.Ranged)
      (Assembly.start 100 false [0, 0, 0, 0]) [(101, [9]), (100, [1, 2, 3, 4]), (100, [5])] s ∧
      s.last = some false ∧ ∀ i < 4, (lastByte s.passed (100 + i)).isSome :=
  ⟨exists_runs_of_execWithin (by decide +kernel), exists_runs_of_execWithin (by decide +kernel)⟩
