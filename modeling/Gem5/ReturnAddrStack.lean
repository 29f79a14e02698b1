/-
# Squashing and the return address stack

`BPredUnit` (`src/cpu/pred/bpred_unit.cc`) predicts the targets of returns with a
circular stack (`ras.cc`).  `predict` pushes for a call and pops for a return,
and keeps a record of each branch in `predHist`; `squash(sn)` undoes the records
of the branches younger than `sn`, and the resolution of a mispredicted branch
squashes, then pops or restores after the fact and changes the record.

A return that was predicted not taken has no `RASIndex` and `RASTarget`.  If it
is resolved as taken, the stack is popped and the record claims to have used the
stack, so undoing it later restores index 0 with address 0.  Apart from this,
squashing gives back the top index and every live entry
(`ras_squash_restores`).

The direction predictor and the BTB are inputs of `predict`, and the addresses
are of any type.  `bpHistory`, `pc` and `wasSquashed` are for the direction
predictor and are left out, as are the statistics.

* `BPredUnit`     — `predict`, `squash`, `resolve` and `update` of one thread.
* `SpeculativeRun` — a unit with a copy of the stack for every branch in flight.
-/
import Gem5.TransitionSystem
import Mathlib

open List

/-! ## The stack -/

structure ReturnAddrStack (PC : Type) where
  numEntries : ℕ
  usedEntries : ℕ
  tos : ℕ
  addrStack : ℕ → PC

variable {PC : Type}

/-- `incrTos`. -/
def incrTos (numEntries tos : ℕ) : ℕ := if tos + 1 = numEntries then 0 else tos + 1

/-- `decrTos`. -/
def decrTos (numEntries tos : ℕ) : ℕ := if tos = 0 then numEntries - 1 else tos - 1

/-- The index that many entries below the top. -/
def slot (numEntries tos k : ℕ) : ℕ := if k ≤ tos then tos - k else tos + numEntries - k

namespace ReturnAddrStack

variable (r : ReturnAddrStack PC)

def top : PC := r.addrStack r.tos

def push (returnAddr : PC) : ReturnAddrStack PC :=
  { r with
    tos := incrTos r.numEntries r.tos
    addrStack := Function.update r.addrStack (incrTos r.numEntries r.tos) returnAddr
    usedEntries := if r.usedEntries ≠ r.numEntries then r.usedEntries + 1 else r.usedEntries }

def pop : ReturnAddrStack PC :=
  { r with tos := decrTos r.numEntries r.tos, usedEntries := r.usedEntries - 1 }

def restore (topEntryIdx : ℕ) (restored : PC) : ReturnAddrStack PC :=
  { r with tos := topEntryIdx, addrStack := Function.update r.addrStack topEntryIdx restored }

/-- `init`. -/
def init [Inhabited PC] (numEntries : ℕ) : ReturnAddrStack PC :=
  { numEntries, usedEntries := 0, tos := 0, addrStack := fun _ => default }

/-- The entry that many entries below the top. -/
def entry (k : ℕ) : PC := r.addrStack (slot r.numEntries r.tos k)

end ReturnAddrStack

/-! ## The unit -/

structure PredictorHistory (PC : Type) where
  seqNum : ℕ
  predTaken : Bool
  usedRAS : Bool := false
  pushedRAS : Bool := false
  wasCall : Bool := false
  wasReturn : Bool := false
  RASIndex : ℕ := 0
  RASTarget : PC

/-- A branch as `predict` sees it, with the answers of the direction predictor and of the BTB. -/
structure PredictedBranch (PC : Type) where
  pc : PC
  isUncondCtrl : Bool
  isReturn : Bool
  isCall : Bool
  lookup : Bool
  btbValid : Bool

structure BPredUnit (PC : Type) where
  ras : ReturnAddrStack PC
  predHist : List (PredictorHistory PC) := []

/-- The part of `squash` that undoes one record. -/
def undo (r : ReturnAddrStack PC) (h : PredictorHistory PC) : ReturnAddrStack PC :=
  if h.usedRAS then r.restore h.RASIndex h.RASTarget
  else if h.wasCall && h.pushedRAS then r.pop
  else r

/-- The loop of `squash`. -/
def undoWhile (sn : ℕ) (r : ReturnAddrStack PC) : List (PredictorHistory PC) → BPredUnit PC
  | [] => ⟨r, []⟩
  | h :: hs => if h.seqNum > sn then undoWhile sn (undo r h) hs else ⟨r, h :: hs⟩

namespace BPredUnit

/-- The stack and the record of a branch. -/
def predictRecord [Inhabited PC] (r : ReturnAddrStack PC) (seqNum : ℕ) (b : PredictedBranch PC) :
    ReturnAddrStack PC × PredictorHistory PC :=
  let record : PredictorHistory PC :=
    { seqNum, predTaken := b.isUncondCtrl || b.lookup, RASTarget := default }
  if b.isUncondCtrl || b.lookup then
    if b.isReturn then
      (r.pop, { record with
        wasReturn := true, usedRAS := true, RASIndex := r.tos, RASTarget := r.top })
    else if b.isCall then
      -- without a target the call of a conditional branch is taken back
      if !b.btbValid && !b.isUncondCtrl then
        ((r.push b.pc).pop, { record with wasCall := true, pushedRAS := false })
      else (r.push b.pc, { record with wasCall := true, pushedRAS := true })
    else (r, record)
  else (r, { record with wasReturn := b.isReturn })

def predict [Inhabited PC] (u : BPredUnit PC) (seqNum : ℕ) (b : PredictedBranch PC) :
    BPredUnit PC :=
  ⟨(predictRecord u.ras seqNum b).1, (predictRecord u.ras seqNum b).2 :: u.predHist⟩

/-- `squash(squashed_sn, tid)`. -/
def squash (u : BPredUnit PC) (sn : ℕ) : BPredUnit PC := undoWhile sn u.ras u.predHist

/-- What the resolution does to the stack and to the record of the mispredicted branch. -/
def fixUp (r : ReturnAddrStack PC) (h : PredictorHistory PC) (taken : Bool) :
    ReturnAddrStack PC × PredictorHistory PC :=
  if taken then
    if h.wasReturn && !h.usedRAS then (r.pop, { h with usedRAS := true }) else (r, h)
  else if h.usedRAS then (r.restore h.RASIndex h.RASTarget, { h with usedRAS := false })
  else if h.wasCall && h.pushedRAS then (r.pop, { h with pushedRAS := false })
  else (r, h)

/-- `squash(squashed_sn, corrTarget, actually_taken, tid)`. -/
def resolve (u : BPredUnit PC) (sn : ℕ) (taken : Bool) : Except Abort (BPredUnit PC) :=
  match (u.squash sn).predHist with
  | [] => .ok (u.squash sn)
  | h :: hs =>
    if h.seqNum = sn then
      .ok ⟨(fixUp (u.squash sn).ras h taken).1, (fixUp (u.squash sn).ras h taken).2 :: hs⟩
    else .error .assertion

/-- `update(done_sn, tid)`: the oldest records go. -/
def update (u : BPredUnit PC) (sn : ℕ) : BPredUnit PC :=
  { u with predHist := u.predHist.rdropWhile fun h => decide (h.seqNum ≤ sn) }

end BPredUnit

/-! ## Runs -/

/-- A copy of the stack, with the number of its live entries. -/
structure Snapshot (PC : Type) where
  ras : ReturnAddrStack PC
  live : ℕ

/-- A unit with a snapshot for each record, taken when the branch was predicted or last resolved,
and one for the youngest branch that is not in the history any more. -/
structure SpeculativeRun (PC : Type) where
  unit : BPredUnit PC
  snapshots : List (Snapshot PC) := []
  base : Snapshot PC

/-- The live entries after a branch. -/
def liveAfter (live : ℕ) (h : PredictorHistory PC) : ℕ :=
  if h.usedRAS then live - 1 else if h.wasCall && h.pushedRAS then live + 1 else live

inductive PredictorOp (PC : Type)
  | predict (seqNum : ℕ) (branch : PredictedBranch PC)
  | squash (sn : ℕ)
  | resolve (sn : ℕ) (taken : Bool)
  | update (sn : ℕ)

namespace SpeculativeRun

variable (s : SpeculativeRun PC)

/-- The snapshot of the youngest branch. -/
def current : Snapshot PC := s.snapshots.headD s.base

/-- The snapshots of the records that are left, which are the oldest ones. -/
def keptSnapshots (u : BPredUnit PC) : List (Snapshot PC) :=
  s.snapshots.drop (s.snapshots.length - u.predHist.length)

/-- The snapshots after a resolution: the one of the branch is taken again. -/
def resnap (base : Snapshot PC) (u : BPredUnit PC) (kept : List (Snapshot PC)) :
    List (Snapshot PC) :=
  match u.predHist, kept with
  | h :: _, _ :: older => ⟨u.ras, liveAfter (older.headD base).live h⟩ :: older
  | _, _ => kept

def step [Inhabited PC] (s : SpeculativeRun PC) :
    PredictorOp PC → Except Abort (SpeculativeRun PC)
  | .predict seqNum b =>
    let u := s.unit.predict seqNum b
    .ok { s with
      unit := u
      snapshots :=
        ⟨u.ras, liveAfter s.current.live (BPredUnit.predictRecord s.unit.ras seqNum b).2⟩ ::
          s.snapshots }
  | .squash sn =>
    let u := s.unit.squash sn
    .ok { s with unit := u, snapshots := s.keptSnapshots u }
  | .resolve sn taken => do
    let u ← s.unit.resolve sn taken
    pure { s with unit := u, snapshots := resnap s.base u (s.keptSnapshots u) }
  | .update sn =>
    let u := s.unit.update sn
    .ok
      { unit := u
        snapshots := s.snapshots.take u.predHist.length
        base := (s.snapshots.drop u.predHist.length).headD s.base }

/-- What the stack should be after `squash(sn)`: as it was after the youngest branch in the history
with a sequence number of at most `sn`, or else after the youngest one that has left it. -/
def reference (sn : ℕ) : Snapshot PC :=
  (((s.unit.predHist.zip s.snapshots).find? fun e => decide (e.1.seqNum ≤ sn)).map
    Prod.snd).getD s.base

def start [Inhabited PC] (numEntries : ℕ) : SpeculativeRun PC :=
  { unit := { ras := .init numEntries }, base := ⟨.init numEntries, 0⟩ }

end SpeculativeRun

/-- **The stack is restored**: the top index and every entry that was live. -/
structure Snapshot.RestoredIn (s : Snapshot PC) (r : ReturnAddrStack PC) : Prop where
  tos : r.tos = s.ras.tos
  live : ∀ k < s.live, r.entry k = s.ras.entry k

instance [DecidableEq PC] (s : Snapshot PC) (r : ReturnAddrStack PC) :
    Decidable (s.RestoredIn r) :=
  decidable_of_iff (r.tos = s.ras.tos ∧ ∀ k < s.live, r.entry k = s.ras.entry k)
    ⟨fun h => ⟨h.1, h.2⟩, fun h => ⟨h.tos, h.live⟩⟩

/-- A return that was predicted not taken and resolved as taken. -/
def PredictorHistory.LateReturn (h : PredictorHistory PC) : Prop :=
  h.wasReturn = true ∧ h.usedRAS = true ∧ h.predTaken = false

instance (h : PredictorHistory PC) : Decidable h.LateReturn :=
  inferInstanceAs (Decidable (_ ∧ _ ∧ _))

namespace SpeculativeRun

variable (s : SpeculativeRun PC)

/-- No more calls than entries: a push does not reach a live entry. -/
def Fits : PredictorOp PC → Prop
  | .predict _ b => (b.isUncondCtrl || b.lookup) = true → b.isReturn = false → b.isCall = true →
      s.current.live < s.unit.ras.numEntries
  | _ => True

/-- **No late return is undone.** -/
def Undoable : PredictorOp PC → Prop
  | .squash sn => ∀ h ∈ s.unit.predHist, sn < h.seqNum → ¬ h.LateReturn
  | .resolve sn taken => ∀ h ∈ s.unit.predHist, sn < h.seqNum ∨ sn = h.seqNum ∧ taken = false →
      ¬ h.LateReturn
  | _ => True

def Safe (op : PredictorOp PC) : Prop := s.Fits op ∧ s.Undoable op

instance (s : SpeculativeRun PC) : (op : PredictorOp PC) → Decidable (s.Fits op)
  | .predict _ _ => inferInstanceAs (Decidable (_ → _ → _ → _))
  | .squash _ | .resolve _ _ | .update _ => inferInstanceAs (Decidable True)

instance (s : SpeculativeRun PC) : (op : PredictorOp PC) → Decidable (s.Undoable op)
  | .squash _ | .resolve _ _ => inferInstanceAs (Decidable (∀ h ∈ s.unit.predHist, _ → _))
  | .predict _ _ | .update _ => inferInstanceAs (Decidable True)

instance (s : SpeculativeRun PC) (op : PredictorOp PC) : Decidable (s.Safe op) :=
  inferInstanceAs (Decidable (_ ∧ _))

end SpeculativeRun

/-! ## The ring -/

theorem decrTos_incrTos (n t : ℕ) : decrTos n (incrTos n t) = t := by
  unfold decrTos incrTos
  split <;> split <;> omega

variable {n t k : ℕ}

theorem incrTos_lt (ht : t < n) : incrTos n t < n := by
  unfold incrTos
  split <;> omega

theorem decrTos_lt (ht : t < n) : decrTos n t < n := by
  unfold decrTos
  split <;> omega

@[simp]
theorem slot_zero (n t : ℕ) : slot n t 0 = t := by
  simp [slot]

theorem slot_decrTos (hk : k + 1 < n) :
    slot n (decrTos n t) k = slot n t (k + 1) := by
  unfold slot decrTos
  split <;> split <;> split <;> omega

theorem slot_incrTos (hk : k < n) : slot n (incrTos n t) (k + 1) = slot n t k := by
  unfold slot incrTos
  split <;> split <;> split <;> omega

theorem slot_succ_ne (hk : k + 1 < n) : slot n t (k + 1) ≠ t := by
  unfold slot
  split <;> omega

/-- The next free index is not the one of an entry below. -/
theorem slot_ne_incrTos (hk : k + 1 < n) : slot n t k ≠ incrTos n t := by
  unfold slot incrTos
  split <;> split <;> omega

/-! ## Undoing one record -/

structure Snapshot.WellFormed (n : ℕ) (s : Snapshot PC) : Prop where
  size : s.ras.numEntries = n
  tos_lt : s.ras.tos < n
  live_le : s.live ≤ n

/-- The stack agrees with a snapshot: on the top and on what is live. -/
structure Agrees (n : ℕ) (r : ReturnAddrStack PC) (s : Snapshot PC) : Prop where
  size : r.numEntries = n
  tos : r.tos = s.ras.tos
  live : ∀ k < s.live, r.addrStack (slot n s.ras.tos k) = s.ras.addrStack (slot n s.ras.tos k)

/-- What the record of a branch says of the snapshot before it. -/
structure PredictorHistory.Recorded (h : PredictorHistory PC) (older : Snapshot PC) : Prop where
  return_of_used : h.usedRAS = true → h.wasReturn = true
  not_pushed : h.wasReturn = true → h.pushedRAS = false
  -- what a return predicted taken has recorded stays valid while its flags change
  saved : h.wasReturn = true → h.predTaken = true →
    h.RASIndex = older.ras.tos ∧ (0 < older.live → h.RASTarget = older.ras.top)

/-- How the snapshot of a branch comes from the one before it. -/
structure Linked (n : ℕ) (h : PredictorHistory PC) (s older : Snapshot PC) : Prop
    extends h.Recorded older where
  wellFormed : s.WellFormed n
  live : s.live = liveAfter older.live h
  tos : s.ras.tos =
    if h.usedRAS then decrTos n older.ras.tos
    else if h.wasCall && h.pushedRAS then incrTos n older.ras.tos else older.ras.tos
  kept : ∀ k < older.live, (h.usedRAS = true → 0 < k) →
    s.ras.addrStack (slot n older.ras.tos k) = older.ras.addrStack (slot n older.ras.tos k)

section Undo

variable {n : ℕ} {r : ReturnAddrStack PC} {s older : Snapshot PC} {h : PredictorHistory PC}

theorem Snapshot.WellFormed.agrees (w : s.WellFormed n) : Agrees n s.ras s :=
  ⟨w.size, rfl, fun _ _ => rfl⟩

section

variable (a : Agrees n r s)

include a

theorem Agrees.restoredIn (w : s.WellFormed n) : s.RestoredIn r where
  tos := a.tos
  live k hk := by
    unfold ReturnAddrStack.entry
    rw [a.size, w.size, a.tos]
    exact a.live k hk

section

variable (l : Linked n h s older) (w : older.WellFormed n)

include l w

/-- The entries that a branch left alone are the ones of the snapshot before it. -/
theorem Agrees.kept {k : ℕ}
    (hk : k < older.live) (hpos : h.usedRAS = true → 0 < k) :
    r.addrStack (slot n older.ras.tos k) = older.ras.addrStack (slot n older.ras.tos k) := by
  have hkn : k < n := lt_of_lt_of_le hk w.live_le
  have hlive := l.live
  have htos := l.tos
  unfold liveAfter at hlive
  refine Eq.trans ?_ (l.kept k hk hpos)
  -- the index from the top of the later snapshot is one less after a pop and one more after a push
  split_ifs at hlive htos with hused hcall
  · obtain ⟨j, rfl⟩ : ∃ j, k = j + 1 := ⟨k - 1, by have := hpos hused; omega⟩
    rw [← slot_decrTos hkn, ← htos]
    exact a.live j (by omega)
  · rw [← slot_incrTos hkn, ← htos]
    exact a.live (k + 1) (by omega)
  · rw [← htos]
    exact a.live k (by omega)

/-- **A return is undone**: its record has the index and the address of the entry it popped, and
the entries below are still there. -/
theorem Agrees.restore (hused : h.usedRAS = true) (htaken : h.predTaken = true) :
    Agrees n (r.restore h.RASIndex h.RASTarget) older := by
  obtain ⟨hidx, htarget⟩ := l.saved (l.return_of_used hused) htaken
  refine ⟨a.size, hidx, ?_⟩
  intro k hk
  dsimp only [ReturnAddrStack.restore]
  rw [hidx]
  cases k with
  | zero => simpa [ReturnAddrStack.top] using htarget hk
  | succ k =>
    rw [Function.update_of_ne (slot_succ_ne (lt_of_lt_of_le hk w.live_le))]
    exact a.kept l w hk fun _ => Nat.succ_pos k

/-- **A call is undone**: the entries below the pushed one are still there. -/
theorem Agrees.pop_call (hused : h.usedRAS = false) (hcall : (h.wasCall && h.pushedRAS) = true) :
    Agrees n r.pop older := by
  have htos : s.ras.tos = incrTos n older.ras.tos := by simpa [hused, hcall] using l.tos
  refine ⟨a.size, ?_, fun k hk => a.kept l w hk (by simp [hused])⟩
  show decrTos r.numEntries r.tos = _
  rw [a.size, a.tos, htos, decrTos_incrTos]

/-- A branch that left the stack alone. -/
theorem Agrees.skip (hused : h.usedRAS = false) (hcall : (h.wasCall && h.pushedRAS) = false) :
    Agrees n r older := by
  have htos : s.ras.tos = older.ras.tos := by simpa [hused, hcall] using l.tos
  exact ⟨a.size, a.tos.trans htos, fun k hk => a.kept l w hk (by simp [hused])⟩

end

end

theorem Linked.predTaken_of_used (l : Linked n h s older) (hlate : ¬ h.LateReturn)
    (hused : h.usedRAS = true) : h.predTaken = true := by
  by_contra hnot
  exact hlate ⟨l.return_of_used hused, hused, by simpa using hnot⟩

theorem Agrees.after_undo (a : Agrees n r s) (l : Linked n h s older) (w : older.WellFormed n)
    (hlate : ¬ h.LateReturn) : Agrees n (undo r h) older := by
  unfold undo
  split_ifs with hused hcall
  · exact a.restore l w hused (l.predTaken_of_used hlate hused)
  · exact a.pop_call l w (by simpa using hused) hcall
  · exact a.skip l w (by simpa using hused) (by simpa using hcall)

end Undo

/-! ## Taking a snapshot -/

section Link

variable {n : ℕ} {r : ReturnAddrStack PC} {s older : Snapshot PC} {h : PredictorHistory PC}

section

variable (a : Agrees n r older)

include a

/-- The stack as it was: the branch has no effect. -/
theorem Agrees.linked_same (w : older.WellFormed n) (hr : h.Recorded older)
    (hused : h.usedRAS = false) (hcall : (h.wasCall && h.pushedRAS) = false) :
    Linked n h ⟨r, liveAfter older.live h⟩ older where
  wellFormed := ⟨a.size, a.tos ▸ w.tos_lt, by simpa [liveAfter, hused, hcall] using w.live_le⟩
  live := rfl
  tos := by simpa [hused, hcall] using a.tos
  kept k hk _ := a.live k hk
  toRecorded := hr

/-- A return pops. -/
theorem Agrees.linked_pop (w : older.WellFormed n) (hr : h.Recorded older)
    (hused : h.usedRAS = true) : Linked n h ⟨r.pop, liveAfter older.live h⟩ older := by
  have htos : r.pop.tos = decrTos n older.ras.tos := by
    show decrTos r.numEntries r.tos = _
    rw [a.size, a.tos]
  have hle : older.live ≤ n + 1 := Nat.le_succ_of_le w.live_le
  exact {
    wellFormed := ⟨a.size, htos ▸ decrTos_lt w.tos_lt, by simpa [liveAfter, hused] using hle⟩
    live := rfl
    tos := by simpa [hused] using htos
    kept := fun k hk _ => a.live k hk
    toRecorded := hr }

/-- A push does not reach the live entries. -/
theorem Agrees.addrStack_push (hroom : older.live < n) (pc : PC) {k : ℕ}
    (hk : k < older.live) :
    (r.push pc).addrStack (slot n older.ras.tos k) =
      older.ras.addrStack (slot n older.ras.tos k) := by
  have hne : slot n older.ras.tos k ≠ incrTos r.numEntries r.tos := by
    rw [a.size, a.tos]
    exact slot_ne_incrTos (by omega)
  exact (Function.update_of_ne hne _ _).trans (a.live k hk)

/-- A call pushes. -/
theorem Agrees.linked_push (w : older.WellFormed n) (hr : h.Recorded older)
    (hroom : older.live < n) (pc : PC) (hused : h.usedRAS = false)
    (hcall : (h.wasCall && h.pushedRAS) = true) :
    Linked n h ⟨r.push pc, liveAfter older.live h⟩ older := by
  have htos : (r.push pc).tos = incrTos n older.ras.tos := by
    show incrTos r.numEntries r.tos = _
    rw [a.size, a.tos]
  exact {
    wellFormed :=
      ⟨a.size, htos ▸ incrTos_lt w.tos_lt, by simpa [liveAfter, hused, hcall] using hroom⟩
    live := rfl
    tos := by simpa [hused, hcall] using htos
    kept := fun k hk _ => a.addrStack_push hroom pc hk
    toRecorded := hr }

/-- The call of a conditional branch without a target is taken back at once. -/
theorem Agrees.push_pop (hroom : older.live < n) (pc : PC) :
    Agrees n (r.push pc).pop older := by
  refine ⟨a.size, ?_, fun k hk => a.addrStack_push hroom pc hk⟩
  show decrTos r.numEntries (incrTos r.numEntries r.tos) = _
  rw [decrTos_incrTos, a.tos]

end

/-- The snapshot is taken again with nothing changed. -/
theorem Linked.again (l : Linked n h s older) (a : Agrees n r s) (w : older.WellFormed n) :
    Linked n h ⟨r, liveAfter older.live h⟩ older :=
  { l with
    wellFormed := ⟨a.size, a.tos ▸ l.wellFormed.tos_lt, l.live ▸ l.wellFormed.live_le⟩
    live := rfl
    tos := a.tos.trans l.tos
    kept := fun _ hk hpos => a.kept l w hk hpos }

end Link

namespace BPredUnit

variable {n : ℕ} {r : ReturnAddrStack PC} {s older : Snapshot PC} {h : PredictorHistory PC}

/-- **A prediction** gives a snapshot that leads back to the one before it. -/
theorem linked_predictRecord [Inhabited PC] (a : Agrees n r older) (w : older.WellFormed n)
    (seqNum : ℕ) (b : PredictedBranch PC)
    (hroom : (b.isUncondCtrl || b.lookup) = true → b.isReturn = false → b.isCall = true →
      older.live < n) :
    Linked n (predictRecord r seqNum b).2
      ⟨(predictRecord r seqNum b).1, liveAfter older.live (predictRecord r seqNum b).2⟩ older := by
  unfold predictRecord
  split_ifs with htaken hreturn hcall hmiss
  · refine a.linked_pop w ⟨fun _ => rfl, fun _ => rfl, fun _ _ => ⟨a.tos, ?_⟩⟩ rfl
    intro hlive
    have := a.live 0 hlive
    exact (congrArg r.addrStack a.tos).trans this
  · have hfree := hroom htaken (by simpa using hreturn) hcall
    exact (a.push_pop hfree b.pc).linked_same w ⟨by simp, by simp, by simp⟩ rfl rfl
  · have hfree := hroom htaken (by simpa using hreturn) hcall
    exact a.linked_push w ⟨by simp, by simp, by simp⟩ hfree b.pc rfl rfl
  · exact a.linked_same w ⟨by simp, by simp, by simp⟩ rfl rfl
  · exact a.linked_same w ⟨by simp, by simp, fun _ h => absurd h htaken⟩ rfl rfl

/-- **A resolution** also does, unless it takes back a return that popped late. -/
theorem linked_fixUp (a : Agrees n r s) (l : Linked n h s older) (w : older.WellFormed n)
    (taken : Bool) (hlate : taken = false → ¬ h.LateReturn) :
    Linked n (fixUp r h taken).2
      ⟨(fixUp r h taken).1, liveAfter older.live (fixUp r h taken).2⟩ older := by
  unfold fixUp
  split_ifs with htaken hreturn hused hcall
  · obtain ⟨hret, hnot⟩ : h.wasReturn = true ∧ h.usedRAS = false := by simpa using hreturn
    have hsame : Agrees n r older := a.skip l w hnot (by simp [l.not_pushed hret])
    exact hsame.linked_pop w ⟨fun _ => hret, l.not_pushed, l.saved⟩ rfl
  · exact l.again a w
  · have hpred := l.predTaken_of_used (hlate (by simpa using htaken)) hused
    refine (a.restore l w hused hpred).linked_same w ⟨by simp, l.not_pushed, l.saved⟩ rfl ?_
    simp [l.not_pushed (l.return_of_used hused)]
  · have hnot : h.usedRAS = false := by simpa using hused
    exact (a.pop_call l w hnot hcall).linked_same w
      ⟨l.return_of_used, fun _ => rfl, l.saved⟩ hnot (by simp)
  · exact l.again a w

end BPredUnit

/-! ## The history -/

/-- Every record is linked to the snapshot before it. -/
def Chained (n : ℕ) (base : Snapshot PC) :
    List (PredictorHistory PC) → List (Snapshot PC) → Prop
  | [], [] => True
  | h :: hs, s :: ss => Linked n h s (ss.headD base) ∧ Chained n base hs ss
  | _, _ => False

section Chain

variable {n : ℕ} {base : Snapshot PC}

variable {ss : List (Snapshot PC)} {sn : ℕ} {r : ReturnAddrStack PC}

theorem Chained.length_eq {hs : List (PredictorHistory PC)} (c : Chained n base hs ss) :
    hs.length = ss.length := by
  fun_induction Chained n base hs ss with
  | case1 => rfl
  | case2 h hs s ss ih => simpa using ih c.2
  | case3 => exact c.elim

theorem Chained.wellFormed {hs : List (PredictorHistory PC)} (c : Chained n base hs ss)
    (w : base.WellFormed n) : (ss.headD base).WellFormed n := by
  cases ss with
  | nil => exact w
  | cons s ss =>
    cases hs with
    | nil => exact c.elim
    | cons h hs => exact c.1.wellFormed

/-- Cutting the list in two does not change what is at its head. -/
theorem headD_take_drop {α : Type*} (l : List α) (k : ℕ) (d : α) :
    (l.take k).headD ((l.drop k).headD d) = l.headD d := by
  cases k with
  | zero => rfl
  | succ k => cases l <;> rfl

theorem undoWhile_suffix (sn : ℕ) (r : ReturnAddrStack PC) (hs : List (PredictorHistory PC)) :
    (undoWhile sn r hs).predHist <:+ hs := by
  fun_induction undoWhile sn r hs with
  | case1 r => exact suffix_refl _
  | case2 r h hs hsn ih => exact ih.trans (suffix_cons h hs)
  | case3 r h hs hsn => exact suffix_refl _

/-- An undone record takes its snapshot with it. -/
theorem drop_undoWhile_cons {hs : List (PredictorHistory PC)} (s : Snapshot PC)
    (hlen : hs.length = ss.length) :
    (s :: ss).drop ((s :: ss).length - (undoWhile sn r hs).predHist.length) =
      ss.drop (ss.length - (undoWhile sn r hs).predHist.length) := by
  have hle := (undoWhile_suffix sn r hs).length_le
  have hsub : (s :: ss).length - (undoWhile sn r hs).predHist.length =
      (ss.length - (undoWhile sn r hs).predHist.length) + 1 := by
    simp only [length_cons]
    omega
  rw [hsub, drop_succ_cons]

/-- **The loop of `squash`** comes to the snapshot of the youngest branch that is left. -/
theorem Chained.after_squash {hs : List (PredictorHistory PC)} (c : Chained n base hs ss)
    (w : base.WellFormed n)
    (a : Agrees n r (ss.headD base)) (hlate : ∀ h ∈ hs, sn < h.seqNum → ¬ h.LateReturn) :
    Chained n base (undoWhile sn r hs).predHist
        (ss.drop (ss.length - (undoWhile sn r hs).predHist.length)) ∧
      Agrees n (undoWhile sn r hs).ras
        ((ss.drop (ss.length - (undoWhile sn r hs).predHist.length)).headD base) := by
  induction hs generalizing r ss with
  | nil =>
    obtain rfl : ss = [] := eq_nil_of_length_eq_zero c.length_eq.symm
    exact ⟨trivial, a⟩
  | cons h hs ih =>
    cases ss with
    | nil => exact c.elim
    | cons s ss =>
      have hlen := c.2.length_eq
      by_cases hsn : h.seqNum > sn
      · have hundo := a.after_undo c.1 (c.2.wellFormed w) (hlate h (by simp) hsn)
        have hstep := ih c.2 hundo fun h' hh' => hlate h' (by simp [hh'])
        rw [undoWhile, if_pos hsn, drop_undoWhile_cons s hlen]
        exact hstep
      · have hdrop : (s :: ss).length - (h :: hs).length = 0 := by simp [hlen]
        rw [undoWhile, if_neg hsn, hdrop]
        exact ⟨c, a⟩

theorem reference_eq_headD {hs : List (PredictorHistory PC)} (hlen : hs.length = ss.length) :
    (((hs.zip ss).find? fun e => decide (e.1.seqNum ≤ sn)).map Prod.snd).getD base =
      (ss.drop (ss.length - (undoWhile sn r hs).predHist.length)).headD base := by
  induction hs generalizing r ss with
  | nil =>
    obtain rfl : ss = [] := eq_nil_of_length_eq_zero hlen.symm
    rfl
  | cons h hs ih =>
    cases ss with
    | nil => simp at hlen
    | cons s ss =>
      have hlen' : hs.length = ss.length := by simpa using hlen
      by_cases hsn : h.seqNum > sn
      · rw [undoWhile, if_pos hsn, drop_undoWhile_cons s hlen', ← ih hlen', zip_cons_cons,
          find?_cons_of_neg (by simpa using hsn)]
      · have hdrop : (s :: ss).length - (h :: hs).length = 0 := by simp [hlen']
        rw [undoWhile, if_neg hsn, hdrop, zip_cons_cons,
          find?_cons_of_pos (by simpa using hsn)]
        rfl

/-- The oldest records leave the history, and the youngest of them gives the new base. -/
theorem Chained.split {kept gone : List (PredictorHistory PC)}
    (c : Chained n base (kept ++ gone) ss) :
    Chained n ((ss.drop kept.length).headD base) kept (ss.take kept.length) ∧
      Chained n base gone (ss.drop kept.length) := by
  induction kept generalizing ss with
  | nil => exact ⟨trivial, c⟩
  | cons h kept ih =>
    cases ss with
    | nil => exact c.elim
    | cons s ss =>
      obtain ⟨hkept, hgone⟩ := ih c.2
      refine ⟨⟨?_, hkept⟩, hgone⟩
      have hlink := c.1
      rw [← headD_take_drop ss kept.length base] at hlink
      exact hlink

end Chain

/-! ## Runs -/

namespace SpeculativeRun

/-- **The invariant**: the stack is the one of the youngest branch, and the records lead back from
there. -/
structure Consistent (n : ℕ) (s : SpeculativeRun PC) : Prop where
  base : s.base.WellFormed n
  chained : Chained n s.base s.unit.predHist s.snapshots
  agrees : Agrees n s.unit.ras s.current

namespace Consistent

variable {n : ℕ} {s s' : SpeculativeRun PC}

theorem current_wellFormed (c : Consistent n s) : s.current.WellFormed n :=
  c.chained.wellFormed c.base

theorem start [Inhabited PC] (hn : 0 < n) : Consistent n (start n : SpeculativeRun PC) where
  base := ⟨rfl, hn, Nat.zero_le n⟩
  chained := trivial
  agrees := ⟨rfl, rfl, fun _ _ => rfl⟩

theorem predict [Inhabited PC] (c : Consistent n s) {seqNum : ℕ} {b : PredictedBranch PC}
    (hfits : s.Fits (.predict seqNum b)) (hstep : s.step (.predict seqNum b) = .ok s') :
    Consistent n s' := by
  cases hstep
  have hlink := BPredUnit.linked_predictRecord c.agrees c.current_wellFormed seqNum b
    (c.agrees.size ▸ hfits)
  exact ⟨c.base, ⟨hlink, c.chained⟩, hlink.wellFormed.agrees⟩

theorem squash (c : Consistent n s) {sn : ℕ}
    (hlate : ∀ h ∈ s.unit.predHist, sn < h.seqNum → ¬ h.LateReturn) :
    Consistent n
      { s with unit := s.unit.squash sn, snapshots := s.keptSnapshots (s.unit.squash sn) } := by
  obtain ⟨hchain, hagrees⟩ := c.chained.after_squash c.base c.agrees hlate
  exact ⟨c.base, hchain, hagrees⟩

/-- The resolution squashes, and then changes the record of the branch and its snapshot. -/
theorem resolve (c : Consistent n s) {sn : ℕ} {taken : Bool} {u : BPredUnit PC}
    (hsafe : s.Undoable (.resolve sn taken)) (hu : s.unit.resolve sn taken = .ok u) :
    Consistent n { s with unit := u, snapshots := resnap s.base u (s.keptSnapshots u) } := by
  have hsquash := c.squash fun h hh hsn => hsafe h hh (.inl hsn)
  unfold BPredUnit.resolve at hu
  split at hu
  · next hnil =>
    cases hu
    simpa only [resnap, hnil] using hsquash
  · next h hs hcons =>
    split_ifs at hu with hsn
    cases hu
    have hfront : h ∈ (s.unit.squash sn).predHist := hcons ▸ mem_cons_self
    have hmem := (undoWhile_suffix sn s.unit.ras s.unit.predHist).subset hfront
    obtain ⟨hbase, hchain, hagrees⟩ := hsquash
    have hkept : s.keptSnapshots (s.unit.squash sn) =
        s.snapshots.drop (s.snapshots.length - (hs.length + 1)) := by
      unfold keptSnapshots
      rw [hcons]
      rfl
    rw [hkept] at hchain hagrees
    rw [hcons] at hchain
    unfold keptSnapshots
    generalize s.snapshots.drop (s.snapshots.length - (hs.length + 1)) = kept at hchain hagrees ⊢
    cases kept with
    | nil => exact hchain.elim
    | cons snap older =>
      have hlink := BPredUnit.linked_fixUp hagrees hchain.1 (hchain.2.wellFormed hbase) taken
        fun htaken => hsafe h hmem (.inr ⟨hsn.symm, htaken⟩)
      exact ⟨hbase, ⟨hlink, hchain.2⟩, hlink.wellFormed.agrees⟩

theorem update [Inhabited PC] (c : Consistent n s) {sn : ℕ}
    (hstep : s.step (.update sn) = .ok s') : Consistent n s' := by
  cases hstep
  obtain ⟨gone, hgone⟩ :=
    rdropWhile_prefix (fun h : PredictorHistory PC => decide (h.seqNum ≤ sn)) s.unit.predHist
  have hsplit := c.chained
  rw [← hgone] at hsplit
  obtain ⟨hkept, hold⟩ := hsplit.split
  refine ⟨hold.wellFormed c.base, hkept, ?_⟩
  have hcur := c.agrees
  unfold current at hcur ⊢
  rw [headD_take_drop]
  exact hcur

theorem step [Inhabited PC] (c : Consistent n s) {op : PredictorOp PC} (hsafe : s.Safe op)
    (hstep : s.step op = .ok s') : Consistent n s' := by
  cases op with
  | predict seqNum b => exact c.predict hsafe.1 hstep
  | squash sn =>
    cases hstep
    exact c.squash hsafe.2
  | resolve sn taken =>
    obtain ⟨u, hu, rfl⟩ := Except.bind_pure_eq_ok hstep
    exact c.resolve hsafe.2 hu
  | update sn => exact c.update hstep

end Consistent

/-- **Squashing restores the return address stack**, in every run in which no push reaches a live
entry and no return that popped only when it was resolved is undone. -/
theorem ras_squash_restores [Inhabited PC] {n : ℕ} (hn : 0 < n) {ops : List (PredictorOp PC)}
    {s : SpeculativeRun PC} (hrun : Runs (Within step Safe) (start n) ops s) {sn : ℕ}
    (hsafe : s.Undoable (.squash sn)) : (s.reference sn).RestoredIn (s.unit.squash sn).ras := by
  have hcons : Consistent n s :=
    hrun.invariant (fun _ _ _ hc hstep => hc.step hstep.1 hstep.2) (Consistent.start hn)
  obtain ⟨hchain, hagrees⟩ := hcons.chained.after_squash hcons.base hcons.agrees hsafe
  have href : s.reference sn = _ := reference_eq_headD (r := s.unit.ras) hcons.chained.length_eq
  rw [href]
  exact hagrees.restoredIn (hchain.wellFormed hcons.base)

/-- Two calls, a return that was predicted and is resolved as not taken, and another branch. -/
theorem ras_squash_restores_two_calls :
    ∃ s : SpeculativeRun ℕ, Runs (Within step Safe) (start 16)
      [.predict 1 ⟨100, true, false, true, false, true⟩,
        .predict 2 ⟨200, true, false, true, false, true⟩,
        .predict 3 ⟨300, false, true, false, true, false⟩, .resolve 3 false,
        .predict 4 ⟨400, true, true, false, false, false⟩] s ∧
      (s.reference 2).live = 2 ∧ (s.reference 2).RestoredIn (s.unit.squash 2).ras := by
  refine exists_runs_imp_of_execWithin (P := fun s =>
    (s.reference 2).live = 2 ∧ s.Undoable (.squash 2))
    (by decide +kernel) ?_
  rintro s hs ⟨hlive, hsafe⟩
  exact ⟨hlive, ras_squash_restores (by decide) hs hsafe⟩

/-- Two calls and a conditional return that is predicted not taken and resolved as taken.  Squashing
it restores index 0 with address 0, and the two return addresses are lost. -/
theorem squash_late_return_resets_top :
    ∃ s : SpeculativeRun ℕ, Runs (Within step Fits) (start 16)
      [.predict 1 ⟨100, true, false, true, false, true⟩,
        .predict 2 ⟨200, true, false, true, false, true⟩,
        .predict 3 ⟨300, false, true, false, false, false⟩, .resolve 3 true] s ∧
      (s.reference 2).ras.tos = 2 ∧ (s.unit.squash 2).ras.tos = 0 ∧
      ¬ (s.reference 2).RestoredIn (s.unit.squash 2).ras :=
  exists_runs_of_execWithin (by decide +kernel)

end SpeculativeRun
