/-
# DRAM command timing

`DRAMCtrl` (`src/mem/dram_ctrl.cc`): `activateBank`, `prechargeBank` and
`doDRAMAccess`, which compute the ticks of the ACT, PRE, RD and WR commands.  The
constraints are kept by moving forward, for each bank, the ticks from which on a
command of each kind is allowed.

Commands are recorded in the order in which their ticks are computed, the newest
first.  A row that is not open is `none`, so `NO_ROW` is no row.  Left out are
refreshes, the power model with its events, the statistics, and `nextReqTime` and
`activeRank`, which these functions only write.

Ticks are numbers of 64 bits and their sums wrap around.  The constructor accepts
any `tRAS`, and with one close to 2 ^ 64 a row is closed before it has been open
for that long (`dram_precharge_wraps`).  While no tick comes within `DRAMParams.span` of
2 ^ 64, nothing wraps (`DRAMCtrl.Roomy`).

* `addTicks`, `subTicks` — sums and differences of ticks.
* `DRAMParams`        — the parameters, with the checks of the constructor.
* `Spaced`            — what the ticks of two commands have to satisfy.
* `DRAMCtrl.Timed`    — the invariant: the allowed-at ticks cover the record.
* `Timed.prechargeBank`, `Timed.activateBank`, `Timed.burst` — one command.
* `Timed.doDRAMAccess` — one access: no assertion fails and the invariant is kept.
-/
import Mathlib
import Gem5.TransitionSystem

open List

open Function

/-! ## Ticks -/

/-- The sum of two ticks. -/
@[irreducible]
def addTicks (a b : ℕ) : ℕ := (a + b) % 2 ^ 64

/-- The difference of two ticks. -/
@[irreducible]
def subTicks (a b : ℕ) : ℕ := (a + 2 ^ 64 - b) % 2 ^ 64

theorem addTicks_eq {a b : ℕ} (h : a + b < 2 ^ 64) : addTicks a b = a + b := by
  unfold addTicks
  exact Nat.mod_eq_of_lt h

theorem subTicks_eq {a b : ℕ} (hle : b ≤ a) (h : a < 2 ^ 64) : subTicks a b = a - b := by
  unfold subTicks
  omega

/-! ## Parameters and state -/

/-- The page policies. -/
inductive PageManage
  | openPage | openAdaptive | closePage | closeAdaptive
  deriving DecidableEq, Repr

/-- The parameters that the commands depend on. -/
structure DRAMParams where
  ranksPerChannel : ℕ
  banksPerRank : ℕ
  bankGroupsPerRank : ℕ
  burstSize : ℕ
  activationLimit : ℕ
  maxAccessesPerRow : ℕ
  pageMgmt : PageManage
  tCS : ℕ
  tBURST : ℕ
  tCCD_L : ℕ
  tRCD : ℕ
  tCL : ℕ
  tRP : ℕ
  tRAS : ℕ
  tWR : ℕ
  tRTP : ℕ
  tRFC : ℕ
  tREFI : ℕ
  tRRD : ℕ
  tRRD_L : ℕ
  tXAW : ℕ
  ranks_pow : ∃ k, ranksPerChannel = 2 ^ k
  refresh_gap : tRP < tREFI ∧ tRFC < tREFI
  groups : 0 < bankGroupsPerRank → bankGroupsPerRank ≤ banksPerRank ∧
    banksPerRank % bankGroupsPerRank = 0 ∧ tBURST < tCCD_L ∧ tRRD ≤ tRRD_L

namespace DRAMParams

variable (p : DRAMParams)

/-- The ranks of the channel. -/
abbrev RankId : Type := Fin p.ranksPerChannel

/-- The banks of a rank. -/
abbrev BankId : Type := Fin p.banksPerRank

/-- The banks are in groups. -/
def bankGroupArch : Bool := 0 < p.bankGroupsPerRank

/-- `bankgr`, a `uint8_t`. -/
def bankgr (b : p.BankId) : ℕ :=
  (if p.bankGroupArch then b % p.bankGroupsPerRank else b) % 256

/-- Both banks are in one group. -/
def sameGroup (b b' : p.BankId) : Bool := p.bankGroupArch && p.bankgr b == p.bankgr b'

/-- The delay between activates of two banks of a rank. -/
def actDelay (b b' : p.BankId) : ℕ := if p.sameGroup b b' then p.tRRD_L else p.tRRD

/-- `cmd_dly`: the delay from a burst of one bank to one of another. -/
def cmdDelay (r : p.RankId) (b : p.BankId) (r' : p.RankId) (b' : p.BankId) : ℕ :=
  if r' = r then if p.sameGroup b b' then p.tCCD_L else p.tBURST else addTicks p.tBURST p.tCS

/-- No tick that an access computes is further than this beyond those before it. -/
def span : ℕ :=
  2 * p.tRP + p.tRCD + p.tRAS + p.tRRD + p.tRRD_L + p.tXAW + p.tCL + p.tBURST + p.tWR + p.tRTP

theorem actDelay_le (b b' : p.BankId) : p.actDelay b b' ≤ p.tRRD + p.tRRD_L := by
  unfold actDelay
  split
  · exact Nat.le_add_left ..
  · exact Nat.le_add_right ..

theorem tRRD_le_actDelay (b b' : p.BankId) : p.tRRD ≤ p.actDelay b b' := by
  unfold actDelay
  split
  · rename_i h
    have harch : p.bankGroupArch = true := (Bool.and_eq_true_iff.mp h).1
    exact (p.groups (of_decide_eq_true harch)).2.2.2
  · exact le_rfl

end DRAMParams

/-- A bank: its open row, and the ticks from which on commands are allowed. -/
structure DRAMBank where
  openRow : Option ℕ := none
  colAllowedAt : ℕ := 0
  preAllowedAt : ℕ := 0
  actAllowedAt : ℕ := 0
  rowAccesses : ℕ := 0
  bytesAccessed : ℕ := 0
  deriving DecidableEq, Repr

/-- The commands; `burst` is RD or WR. -/
inductive DRAMCommandKind
  | ACT (row : ℕ)
  | PRE
  | burst (isRead : Bool) (row : ℕ)
  deriving DecidableEq, Repr

/-- A command at the tick computed for it. -/
structure DRAMCommand (p : DRAMParams) where
  kind : DRAMCommandKind
  rank : p.RankId
  bank : p.BankId
  tick : ℕ
  deriving DecidableEq

/-- What an access reads of a packet. -/
structure DRAMPacket (p : DRAMParams) where
  isRead : Bool
  rank : p.RankId
  bank : p.BankId
  row : ℕ

/-- The state of the controller, and the commands so far. -/
structure DRAMCtrl (p : DRAMParams) where
  banks : p.RankId → p.BankId → DRAMBank
  numBanksActive : p.RankId → ℕ
  actTicks : p.RankId → List ℕ
  busBusyUntil : ℕ
  curTick : ℕ
  log : List (DRAMCommand p) := []

namespace DRAMCtrl

variable {p : DRAMParams}

/-- The state after `startup()` at a tick. -/
def startup (p : DRAMParams) (tick : ℕ) : DRAMCtrl p where
  banks := fun _ _ => {}
  numBanksActive := fun _ => 0
  actTicks := fun _ => List.replicate p.activationLimit 0
  busBusyUntil := addTicks (addTicks (addTicks tick p.tRP) p.tRCD) p.tCL
  curTick := tick

/-! ## Commands -/

end DRAMCtrl

/-- The fields of a bank that `activateBank` sets. -/
def DRAMBank.activate (p : DRAMParams) (k : DRAMBank) (actTick row : ℕ) : DRAMBank :=
  { k with
    openRow := some row
    bytesAccessed := 0
    rowAccesses := 0
    preAllowedAt := addTicks actTick p.tRAS
    colAllowedAt := max (addTicks actTick p.tRCD) k.colAllowedAt }

/-- The fields of a bank that `prechargeBank` sets. -/
def DRAMBank.precharge (p : DRAMParams) (k : DRAMBank) (preAt : ℕ) : DRAMBank :=
  { k with
    openRow := none
    preAllowedAt := preAt
    actAllowedAt := max k.actAllowedAt (addTicks preAt p.tRP) }

/-- The fields of the accessed bank that a column command sets. -/
def DRAMBank.access (p : DRAMParams) (k : DRAMBank) (isRead : Bool) (cmdAt : ℕ) : DRAMBank :=
  { k with
    preAllowedAt := max k.preAllowedAt
      (if isRead then addTicks cmdAt p.tRTP
        else addTicks (addTicks (addTicks cmdAt p.tCL) p.tBURST) p.tWR)
    bytesAccessed := (k.bytesAccessed + p.burstSize) % 2 ^ 32
    rowAccesses := (k.rowAccesses + 1) % 2 ^ 32 }

section banks

variable {p : DRAMParams}

/-- Replace the record of a bank. -/
def setBank (banks : p.RankId → p.BankId → DRAMBank) (r : p.RankId) (b : p.BankId) (k : DRAMBank) :
    p.RankId → p.BankId → DRAMBank :=
  fun r' b' => if r' = r ∧ b' = b then k else banks r' b'

/-- No activate of a bank of the rank before the tick given for it. -/
def holdActivates (banks : p.RankId → p.BankId → DRAMBank) (r : p.RankId) (tick : p.BankId → ℕ) :
    p.RankId → p.BankId → DRAMBank :=
  fun r' b' =>
    if r' = r then
      { banks r' b' with actAllowedAt := max (tick b') (banks r' b').actAllowedAt }
    else banks r' b'

/-- The banks after an activate, before tXAW is dealt with. -/
def activateBanks (banks : p.RankId → p.BankId → DRAMBank) (r : p.RankId) (b : p.BankId)
    (actTick row : ℕ) : p.RankId → p.BankId → DRAMBank :=
  holdActivates (setBank banks r b ((banks r b).activate p actTick row)) r
    fun b' => addTicks actTick (p.actDelay b b')

/-- No burst of any bank too soon after one of the bank given. -/
def holdBursts (banks : p.RankId → p.BankId → DRAMBank) (r : p.RankId) (b : p.BankId)
    (cmdAt : ℕ) : p.RankId → p.BankId → DRAMBank :=
  fun r' b' =>
    { banks r' b' with
      colAllowedAt := max (addTicks cmdAt (p.cmdDelay r b r' b')) (banks r' b').colAllowedAt }

variable {banks : p.RankId → p.BankId → DRAMBank} {r r' : p.RankId} {b b' : p.BankId} {k : DRAMBank}

@[simp]
theorem setBank_self : setBank banks r b k r b = k := if_pos ⟨rfl, rfl⟩

theorem setBank_of_ne (h : ¬ (r' = r ∧ b' = b)) : setBank banks r b k r' b' = banks r' b' :=
  if_neg h

variable {tick : p.BankId → ℕ}

theorem holdActivates_self :
    (holdActivates banks r tick r b).actAllowedAt = max (tick b) (banks r b).actAllowedAt := by
  unfold holdActivates
  rw [if_pos rfl]

theorem le_holdActivates :
    (banks r' b').actAllowedAt ≤ (holdActivates banks r tick r' b').actAllowedAt := by
  unfold holdActivates
  split
  · exact le_max_right ..
  · exact le_rfl

/-- Only the tick of the next activate changes. -/
theorem holdActivates_eq : holdActivates banks r tick r' b' =
    { banks r' b' with actAllowedAt := (holdActivates banks r tick r' b').actAllowedAt } := by
  unfold holdActivates
  split <;> rfl

variable {actTick row : ℕ}

theorem activateBanks_self (banks : p.RankId → p.BankId → DRAMBank) (r : p.RankId) (b : p.BankId)
    (actTick row : ℕ) :
    (activateBanks banks r b actTick row r b).openRow = some row ∧
      (activateBanks banks r b actTick row r b).preAllowedAt = addTicks actTick p.tRAS ∧
      (activateBanks banks r b actTick row r b).colAllowedAt =
        max (addTicks actTick p.tRCD) (banks r b).colAllowedAt := by
  unfold activateBanks
  rw [holdActivates_eq, setBank_self]
  exact ⟨rfl, rfl, rfl⟩

theorem activateBanks_of_ne (h : ¬ (r' = r ∧ b' = b)) :
    (activateBanks banks r b actTick row r' b').openRow = (banks r' b').openRow ∧
      (activateBanks banks r b actTick row r' b').preAllowedAt = (banks r' b').preAllowedAt ∧
      (activateBanks banks r b actTick row r' b').colAllowedAt = (banks r' b').colAllowedAt := by
  unfold activateBanks
  rw [holdActivates_eq, setBank_of_ne h]
  exact ⟨rfl, rfl, rfl⟩

theorem le_activateBanks :
    (banks r' b').actAllowedAt ≤ (activateBanks banks r b actTick row r' b').actAllowedAt := by
  refine le_trans ?_ le_holdActivates
  by_cases h : r' = r ∧ b' = b
  · rw [h.1, h.2, setBank_self]
    exact le_rfl
  · rw [setBank_of_ne h]

theorem actDelay_le_activateBanks (banks : p.RankId → p.BankId → DRAMBank) (b : p.BankId) (row : ℕ)
    (b' : p.BankId) :
    addTicks actTick (p.actDelay b b') ≤
      (activateBanks banks r b actTick row r b').actAllowedAt := by
  unfold activateBanks
  rw [holdActivates_self]
  exact le_max_left ..

end banks

namespace DRAMCtrl

/-- The part of `activateBank` about tXAW: the window of activates and the banks. -/
def limitActivates (s : DRAMCtrl p) (banks : p.RankId → p.BankId → DRAMBank) (r : p.RankId)
    (actTick : ℕ) : Except Abort (List ℕ × (p.RankId → p.BankId → DRAMBank)) :=
  match (s.actTicks r).getLast? with
  | none => .ok (s.actTicks r, banks)
  | some back =>
    if back ≠ 0 ∧ subTicks actTick back < p.tXAW then .error .assertion
    else
      let ticks := actTick :: (s.actTicks r).dropLast
      let oldest := ticks.getLast?.getD 0
      if oldest ≠ 0 ∧ subTicks actTick oldest < p.tXAW then
        .ok (ticks, holdActivates banks r fun _ => addTicks oldest p.tXAW)
      else .ok (ticks, banks)

/-- Activate a row at `actTick`; the panic about tXAW counts as an assertion. -/
def activateBank (s : DRAMCtrl p) (r : p.RankId) (b : p.BankId) (actTick row : ℕ) :
    Except Abort (DRAMCtrl p) :=
  if (s.actTicks r).length ≠ p.activationLimit then .error .assertion
  else if (s.banks r b).openRow ≠ none then .error .assertion
  else if p.banksPerRank < s.numBanksActive r + 1 then .error .assertion
  else do
    let limited ← s.limitActivates (activateBanks s.banks r b actTick row) r actTick
    pure { s with
      banks := limited.2
      numBanksActive := Function.update s.numBanksActive r (s.numBanksActive r + 1)
      actTicks := Function.update s.actTicks r limited.1
      log := ⟨.ACT row, r, b, actTick⟩ :: s.log }

/-- Close the row of a bank at `preAt`. -/
def prechargeBank (s : DRAMCtrl p) (r : p.RankId) (b : p.BankId) (preAt : ℕ) :
    Except Abort (DRAMCtrl p) :=
  if (s.banks r b).openRow = none then .error .assertion
  else if s.numBanksActive r = 0 then .error .assertion
  else .ok { s with
    banks := setBank s.banks r b ((s.banks r b).precharge p preAt)
    numBanksActive := Function.update s.numBanksActive r (s.numBanksActive r - 1)
    log := ⟨.PRE, r, b, preAt⟩ :: s.log }

/-! ## An access -/

/-- If there is a page open, precharge it. -/
def closeRow (s : DRAMCtrl p) (pkt : DRAMPacket p) : Except Abort (DRAMCtrl p) :=
  if (s.banks pkt.rank pkt.bank).openRow = none then .ok s
  else s.prechargeBank pkt.rank pkt.bank
    (max (s.banks pkt.rank pkt.bank).preAllowedAt s.curTick)

/-- `doDRAMAccess` up to the column command: the row is opened if it is not, and the tick from
which on the command is allowed is returned. -/
def openRowFor (s : DRAMCtrl p) (pkt : DRAMPacket p) : Except Abort (ℕ × DRAMCtrl p) :=
  if (s.banks pkt.rank pkt.bank).openRow = some pkt.row then
    .ok (max (s.banks pkt.rank pkt.bank).colAllowedAt s.curTick, s)
  else do
    let closed ← s.closeRow pkt
    let opened ← closed.activateBank pkt.rank pkt.bank
      (max (closed.banks pkt.rank pkt.bank).actAllowedAt closed.curTick) pkt.row
    pure ((opened.banks pkt.rank pkt.bank).colAllowedAt, opened)

/-- The column command at `cmdAt`: the later bursts of all banks and the precharge of this one
have to wait. -/
def burst (s : DRAMCtrl p) (pkt : DRAMPacket p) (cmdAt : ℕ) : DRAMCtrl p :=
  let banks := holdBursts s.banks pkt.rank pkt.bank cmdAt
  { s with
    banks := setBank banks pkt.rank pkt.bank
      ((banks pkt.rank pkt.bank).access p pkt.isRead cmdAt)
    log := ⟨.burst pkt.isRead pkt.row, pkt.rank, pkt.bank, cmdAt⟩ :: s.log }

/-- The loop over the rest of the queue: `got_more_hits` and `got_bank_conflict`. -/
def scanQueue (pkt : DRAMPacket p) : List (DRAMPacket p) → Bool → Bool × Bool
  | [], conflict => (false, conflict)
  | q :: queue, conflict =>
    let sameBank := pkt.rank = q.rank ∧ pkt.bank = q.bank
    if sameBank ∧ pkt.row = q.row then (true, conflict)
    else scanQueue pkt queue (conflict || sameBank)

/-- The access closes its row. -/
def autoPrecharge (s : DRAMCtrl p) (pkt : DRAMPacket p) (queue : List (DRAMPacket p)) : Bool :=
  if p.pageMgmt = .closePage ∨
      (s.banks pkt.rank pkt.bank).rowAccesses = p.maxAccessesPerRow then true
  else if p.pageMgmt = .openAdaptive ∨ p.pageMgmt = .closeAdaptive then
    let scan := scanQueue pkt queue false
    !scan.1 && (scan.2 || p.pageMgmt = .closeAdaptive)
  else false

/-- The auto-precharge at the end of an access. -/
def closeAfter (s : DRAMCtrl p) (pkt : DRAMPacket p) (queue : List (DRAMPacket p)) :
    Except Abort (DRAMCtrl p) :=
  if s.autoPrecharge pkt queue then
    s.prechargeBank pkt.rank pkt.bank (max s.curTick (s.banks pkt.rank pkt.bank).preAllowedAt)
  else .ok s

/-- `doDRAMAccess` from the column command at `cmdAt` on, with the data ready at `readyTime`. -/
def columnAccess (s : DRAMCtrl p) (pkt : DRAMPacket p) (queue : List (DRAMPacket p))
    (cmdAt readyTime : ℕ) : Except Abort (DRAMCtrl p) :=
  if subTicks readyTime s.busBusyUntil < p.tBURST then .error .assertion
  else do
    let closed ← (s.burst pkt cmdAt).closeAfter pkt queue
    pure { closed with busBusyUntil := readyTime }

/-- `doDRAMAccess`; `queue` is what follows the packet in its queue. -/
def doDRAMAccess (s : DRAMCtrl p) (pkt : DRAMPacket p) (queue : List (DRAMPacket p)) :
    Except Abort (DRAMCtrl p) := do
  let opened ← s.openRowFor pkt
  let cmdAt := max opened.1 (subTicks opened.2.busBusyUntil p.tCL)
  opened.2.columnAccess pkt queue cmdAt (addTicks (addTicks cmdAt p.tCL) p.tBURST)

/-- An access at a tick. -/
structure Access (p : DRAMParams) where
  tick : ℕ
  pkt : DRAMPacket p
  queue : List (DRAMPacket p)

/-- One access. -/
def step (s : DRAMCtrl p) (a : Access p) : Except Abort (DRAMCtrl p) :=
  { s with curTick := a.tick }.doDRAMAccess a.pkt a.queue

/-- The ticks do not go back and are greater than 0. -/
def Later (s : DRAMCtrl p) (a : Access p) : Prop := s.curTick ≤ a.tick ∧ 0 < a.tick

/-- The ticks that an access of the packet starts from are at most `m`. -/
def Until (s : DRAMCtrl p) (pkt : DRAMPacket p) (m : ℕ) : Prop :=
  s.curTick ≤ m ∧ s.busBusyUntil ≤ m ∧ (s.banks pkt.rank pkt.bank).colAllowedAt ≤ m ∧
    (s.banks pkt.rank pkt.bank).preAllowedAt ≤ m ∧ (s.banks pkt.rank pkt.bank).actAllowedAt ≤ m

/-- In addition the ticks of the access stay below 2 ^ 64. -/
def Roomy (s : DRAMCtrl p) (a : Access p) : Prop :=
  s.Later a ∧ { s with curTick := a.tick }.Until a.pkt (2 ^ 64 - 1 - p.span)

instance (s : DRAMCtrl p) (a : Access p) : Decidable (s.Later a) :=
  inferInstanceAs (Decidable (_ ∧ _))

instance (s : DRAMCtrl p) (a : Access p) : Decidable (s.Roomy a) :=
  inferInstanceAs (Decidable (_ ∧ _ ∧ _ ∧ _ ∧ _ ∧ _))

end DRAMCtrl

/-! ## What the record has to satisfy -/

/-- The later command `c` against an earlier one: ACT after PRE, PRE after ACT and a burst after ACT
of one bank, two ACTs of one rank, and two bursts, each with its data on the bus from `tCL` on. -/
def Spaced {p : DRAMParams} (c d : DRAMCommand p) : Prop :=
  match c.kind, d.kind with
  | .ACT _, .PRE => c.rank = d.rank → c.bank = d.bank → d.tick + p.tRP ≤ c.tick
  | .PRE, .ACT _ => c.rank = d.rank → c.bank = d.bank → d.tick + p.tRAS ≤ c.tick
  | .burst _ _, .ACT _ => c.rank = d.rank → c.bank = d.bank → d.tick + p.tRCD ≤ c.tick
  | .ACT _, .ACT _ => c.rank = d.rank → d.tick + p.tRRD ≤ c.tick ∧
    (p.sameGroup d.bank c.bank = true → d.tick + p.tRRD_L ≤ c.tick)
  | .burst _ _, .burst _ _ => d.tick + p.tCL + p.tBURST ≤ c.tick + p.tCL
  | _, _ => True

instance {p : DRAMParams} : DecidableRel (Spaced (p := p)) := by
  intro c d
  unfold Spaced
  split <;> infer_instance

/-- The row of a bank that the commands leave open. -/
def rowOpen {p : DRAMParams} (r : p.RankId) (b : p.BankId) : List (DRAMCommand p) → Option ℕ
  | [] => none
  | c :: log =>
    if r = c.rank ∧ b = c.bank then
      match c.kind with
      | .ACT row => some row
      | .PRE => none
      | .burst _ _ => rowOpen r b log
    else rowOpen r b log

/-- The ticks of the activates of a rank. -/
def actsOf {p : DRAMParams} (r : p.RankId) : List (DRAMCommand p) → List ℕ
  | [] => []
  | c :: log =>
    match c.kind with
    | .ACT _ => if c.rank = r then c.tick :: actsOf r log else actsOf r log
    | _ => actsOf r log

section acts

variable {p : DRAMParams} {log : List (DRAMCommand p)} {r r' : p.RankId} {b : p.BankId}
  {row tick x : ℕ}

theorem actsOf_act_self : actsOf r (⟨.ACT row, r, b, tick⟩ :: log) = tick :: actsOf r log :=
  if_pos rfl

theorem actsOf_act_of_ne (h : r ≠ r') :
    actsOf r' (⟨.ACT row, r, b, tick⟩ :: log) = actsOf r' log :=
  if_neg h

theorem mem_actsOf (h : x ∈ actsOf r log) :
    ∃ c ∈ log, ∃ row, c.kind = .ACT row ∧ c.rank = r ∧ c.tick = x := by
  induction log with
  | nil => cases h
  | cons c log ih =>
    have hlater : x ∈ actsOf r log → ∃ d ∈ c :: log, ∃ row, d.kind = .ACT row ∧ d.rank = r ∧
        d.tick = x := by
      intro hmem
      obtain ⟨d, hd, hrest⟩ := ih hmem
      exact ⟨d, .tail _ hd, hrest⟩
    unfold actsOf at h
    split at h
    · rename_i row hkind
      split at h
      · rename_i hrank
        rcases mem_cons.mp h with rfl | h
        · exact ⟨c, mem_cons_self .., row, hkind, hrank, rfl⟩
        · exact hlater h
      · exact hlater h
    · exact hlater h

end acts

/-- The last `n` ticks, with zeros for those that are missing. -/
def lastTicks (n : ℕ) (ticks : List ℕ) : List ℕ := (ticks ++ List.replicate n 0).take n

theorem length_lastTicks (n : ℕ) (ticks : List ℕ) : (lastTicks n ticks).length = n := by
  unfold lastTicks
  rw [length_take, length_append, length_replicate]
  exact min_eq_left (Nat.le_add_left ..)

theorem lastTicks_cons (n t : ℕ) (ticks : List ℕ) :
    t :: (lastTicks (n + 1) ticks).dropLast = lastTicks (n + 1) (t :: ticks) := by
  rw [dropLast_eq_take, length_lastTicks]
  unfold lastTicks
  rw [take_take, cons_append, take_succ_cons, Nat.add_sub_cancel,
    min_eq_left (Nat.le_succ n)]

theorem getLast?_lastTicks (n : ℕ) (ticks : List ℕ) :
    (lastTicks (n + 1) ticks).getLast? = some (ticks[n]?.getD 0) := by
  rw [getLast?_eq_getElem?, length_lastTicks]
  unfold lastTicks
  rw [Nat.add_sub_cancel, getElem?_take_of_lt (Nat.lt_succ_self n)]
  by_cases h : n < ticks.length
  · rw [getElem?_append_left h, getElem?_eq_getElem h]
    rfl
  · have hle := not_lt.mp h
    rw [getElem?_append_right hle, getElem?_eq_none hle,
      getElem?_replicate_of_lt (by omega)]
    rfl

section record

variable {p : DRAMParams} {log : List (DRAMCommand p)} {banks banks' : p.RankId → p.BankId → DRAMBank}
  {r : p.RankId} {b : p.BankId} {tick : ℕ}

/-- Each burst of the record finds its row open. -/
def Opened (log : List (DRAMCommand p)) : Prop :=
  ∀ c older, c :: older <:+ log → ∀ isRead row, c.kind = .burst isRead row →
    rowOpen c.rank c.bank older = some row

theorem Opened.cons {c : DRAMCommand p} (h : Opened log)
    (hc : ∀ isRead row, c.kind = .burst isRead row → rowOpen c.rank c.bank log = some row) :
    Opened (c :: log) := by
  intro d older hsuffix
  rcases suffix_cons_iff.mp hsuffix with heq | hsuffix
  · obtain ⟨rfl, rfl⟩ := cons.inj heq
    exact hc
  · exact h d older hsuffix

/-- The allowed-at ticks of the banks cover the record. -/
structure Covered (log : List (DRAMCommand p)) (banks : p.RankId → p.BankId → DRAMBank) :
    Prop where
  act : ∀ c ∈ log, ∀ row, c.kind = .ACT row → 0 < c.tick ∧
    c.tick + p.tRAS ≤ (banks c.rank c.bank).preAllowedAt ∧
    c.tick + p.tRCD ≤ (banks c.rank c.bank).colAllowedAt ∧
    ∀ b, c.tick + p.actDelay c.bank b ≤ (banks c.rank b).actAllowedAt
  pre : ∀ c ∈ log, c.kind = .PRE → c.tick + p.tRP ≤ (banks c.rank c.bank).actAllowedAt
  window : ∀ r n x, p.activationLimit = n + 1 → (actsOf r log)[n]? = some x →
    ∀ b, x + p.tXAW ≤ (banks r b).actAllowedAt

/-- Ticks that move forward still cover the record. -/
theorem Covered.mono (h : Covered log banks)
    (hle : ∀ r b, (banks r b).actAllowedAt ≤ (banks' r b).actAllowedAt ∧
      (banks r b).preAllowedAt ≤ (banks' r b).preAllowedAt ∧
      (banks r b).colAllowedAt ≤ (banks' r b).colAllowedAt) : Covered log banks' where
  act := by
    intro c hc row hkind
    obtain ⟨hpos, hras, hrcd, hact⟩ := h.act c hc row hkind
    obtain ⟨-, hpre, hcol⟩ := hle c.rank c.bank
    exact ⟨hpos, hras.trans hpre, hrcd.trans hcol, fun b => (hact b).trans (hle c.rank b).1⟩
  pre := fun c hc hkind => (h.pre c hc hkind).trans (hle c.rank c.bank).1
  window := fun r n x hn hx b => (h.window r n x hn hx b).trans (hle r b).1

/-- A precharge after the tick of its bank, within 64 bits. -/
theorem Covered.precharge (h : Covered log banks) (hpre : (banks r b).preAllowedAt ≤ tick)
    (hroom : tick + p.tRP < 2 ^ 64) :
    Covered (⟨.PRE, r, b, tick⟩ :: log) (setBank banks r b ((banks r b).precharge p tick)) := by
  have hset : Covered log (setBank banks r b ((banks r b).precharge p tick)) := by
    refine h.mono fun r' b' => ?_
    by_cases hb : r' = r ∧ b' = b
    · obtain ⟨rfl, rfl⟩ := hb
      rw [setBank_self]
      exact ⟨le_max_left .., hpre, le_rfl⟩
    · rw [setBank_of_ne hb]
      exact ⟨le_rfl, le_rfl, le_rfl⟩
  refine ⟨fun c hc row hkind => ?_, fun c hc hkind => ?_, hset.window⟩
  · rcases mem_cons.mp hc with rfl | hc
    · cases hkind
    · exact hset.act c hc row hkind
  · rcases mem_cons.mp hc with rfl | hc
    · rw [setBank_self]
      exact (addTicks_eq hroom).symm.le.trans (le_max_right ..)
    · exact hset.pre c hc hkind

/-- A burst only moves ticks forward. -/
theorem Covered.access (h : Covered log banks) {isRead : Bool} {row : ℕ} :
    Covered (⟨.burst isRead row, r, b, tick⟩ :: log)
      (setBank (holdBursts banks r b tick) r b
        ((holdBursts banks r b tick r b).access p isRead tick)) := by
  have hset : Covered log (setBank (holdBursts banks r b tick) r b
      ((holdBursts banks r b tick r b).access p isRead tick)) := by
    refine h.mono fun r' b' => ?_
    by_cases hb : r' = r ∧ b' = b
    · obtain ⟨rfl, rfl⟩ := hb
      rw [setBank_self]
      exact ⟨le_rfl, le_max_left .., le_max_right ..⟩
    · rw [setBank_of_ne hb]
      exact ⟨le_rfl, le_rfl, le_max_right ..⟩
  refine ⟨fun c hc row hkind => ?_, fun c hc hkind => ?_, hset.window⟩
  · rcases mem_cons.mp hc with rfl | hc
    · cases hkind
    · exact hset.act c hc row hkind
  · rcases mem_cons.mp hc with rfl | hc
    · cases hkind
    · exact hset.pre c hc hkind

/-- An activate after those of its rank, within 64 bits. -/
theorem Covered.activate {row : ℕ} {held : p.RankId → p.BankId → ℕ} (h : Covered log banks)
    (hpos : 0 < tick) (hroom : tick + (p.tRAS + p.tRCD + p.tRRD + p.tRRD_L) < 2 ^ 64)
    (hearlier : ∀ d ∈ log, ∀ row', d.kind = .ACT row' → d.rank = r → d.tick ≤ tick)
    (hheld : ∀ r' b', (activateBanks banks r b tick row r' b').actAllowedAt ≤ held r' b')
    (hwindow : ∀ n x, p.activationLimit = n + 1 → (tick :: actsOf r log)[n]? = some x →
      ∀ b, x + p.tXAW ≤ held r b) :
    Covered (⟨.ACT row, r, b, tick⟩ :: log) fun r' b' =>
      { activateBanks banks r b tick row r' b' with actAllowedAt := held r' b' } := by
  have hle : ∀ r' b', (banks r' b').actAllowedAt ≤ held r' b' :=
    fun r' b' => le_activateBanks.trans (hheld r' b')
  obtain ⟨-, hpre, hcol⟩ := activateBanks_self banks r b tick row
  rw [addTicks_eq (by omega)] at hpre hcol
  constructor
  · intro c hc row' hkind
    rcases mem_cons.mp hc with rfl | hc
    · refine ⟨hpos, hpre.ge, (le_max_left _ _).trans hcol.ge, fun b' => ?_⟩
      have hdelay := p.actDelay_le b b'
      have hnext : addTicks tick (p.actDelay b b') ≤ _ :=
        actDelay_le_activateBanks (r := r) banks b row b'
      rw [addTicks_eq (by omega)] at hnext
      exact hnext.trans (hheld r b')
    · obtain ⟨hpos', hras, hrcd, hact⟩ := h.act c hc row' hkind
      refine ⟨hpos', ?_, ?_, fun b' => (hact b').trans (hle _ b')⟩
      · show c.tick + p.tRAS ≤ (activateBanks banks r b tick row c.rank c.bank).preAllowedAt
        by_cases hb : c.rank = r ∧ c.bank = b
        · rw [hb.1, hb.2, hpre]
          exact Nat.add_le_add_right (hearlier c hc row' hkind hb.1) _
        · rw [(activateBanks_of_ne hb).2.1]
          exact hras
      · show c.tick + p.tRCD ≤ (activateBanks banks r b tick row c.rank c.bank).colAllowedAt
        by_cases hb : c.rank = r ∧ c.bank = b
        · rw [hb.1, hb.2] at hrcd ⊢
          rw [hcol]
          exact hrcd.trans (le_max_right ..)
        · rw [(activateBanks_of_ne hb).2.2]
          exact hrcd
  · intro c hc hkind
    rcases mem_cons.mp hc with rfl | hc
    · cases hkind
    · exact (h.pre c hc hkind).trans (hle _ _)
  · intro r' n x hn hx b'
    rcases eq_or_ne r r' with rfl | hr
    · rw [actsOf_act_self] at hx
      exact hwindow n x hn hx b'
    · rw [actsOf_act_of_ne hr] at hx
      exact (h.window r' n x hn hx b').trans (hle r' b')

/-- The banks of a rank with an open row. -/
def openBanks (banks : p.RankId → p.BankId → DRAMBank) (r : p.RankId) : Finset p.BankId :=
  Finset.univ.filter fun b => (banks r b).openRow ≠ none

theorem mem_openBanks : b ∈ openBanks banks r ↔ (banks r b).openRow ≠ none := by
  simp [openBanks]

/-- Only the open rows matter. -/
theorem openBanks_congr (h : ∀ b, (banks' r b).openRow = (banks r b).openRow) :
    openBanks banks' r = openBanks banks r := by
  ext b
  rw [mem_openBanks, mem_openBanks, h b]

theorem openBanks_precharge (r' : p.RankId) :
    openBanks (setBank banks r b ((banks r b).precharge p tick)) r' =
      if r' = r then (openBanks banks r).erase b else openBanks banks r' := by
  split
  · rename_i hr
    subst hr
    ext b'
    rw [Finset.mem_erase, mem_openBanks, mem_openBanks]
    rcases eq_or_ne b' b with rfl | hb
    · simp [DRAMBank.precharge]
    · rw [setBank_of_ne fun h => hb h.2]
      exact (and_iff_right hb).symm
  · rename_i hr
    refine openBanks_congr fun b' => ?_
    rw [setBank_of_ne fun h => hr h.1]

theorem openBanks_activate {row : ℕ} {held : p.RankId → p.BankId → ℕ} (r' : p.RankId) :
    openBanks (fun r' b' =>
      { activateBanks banks r b tick row r' b' with actAllowedAt := held r' b' }) r' =
      if r' = r then insert b (openBanks banks r) else openBanks banks r' := by
  split
  · rename_i hr
    subst hr
    ext b'
    rw [Finset.mem_insert, mem_openBanks, mem_openBanks]
    rcases eq_or_ne b' b with rfl | hb
    · rw [(activateBanks_self banks r' b' tick row).1]
      simp
    · rw [(activateBanks_of_ne fun h => hb h.2).1]
      exact (or_iff_right hb).symm
  · rename_i hr
    exact openBanks_congr fun b' => (activateBanks_of_ne fun h => hr h.1).1

end record

namespace DRAMCtrl

variable {p : DRAMParams} {s : DRAMCtrl p} {r : p.RankId} {b : p.BankId}

/-- The allowed-at ticks, the window of activates and the count of open banks agree with the
record, and the record is as it has to be. -/
structure Timed (s : DRAMCtrl p) : Prop where
  spaced : s.log.Pairwise Spaced
  opened : Opened s.log
  windows : 0 < p.activationLimit → ∀ r i x y, (actsOf r s.log)[i]? = some x →
    (actsOf r s.log)[i + p.activationLimit]? = some y → y + p.tXAW ≤ x
  covered : Covered s.log s.banks
  openRow : ∀ r b, (s.banks r b).openRow = rowOpen r b s.log
  actTicks : ∀ r, s.actTicks r = lastTicks p.activationLimit (actsOf r s.log)
  active : ∀ r, s.numBanksActive r = (openBanks s.banks r).card

/-- The bus is free from `busBusyUntil` on. -/
structure BusFree (s : DRAMCtrl p) : Prop where
  latency : p.tCL ≤ s.busBusyUntil
  bursts : ∀ c ∈ s.log, ∀ isRead row, c.kind = .burst isRead row →
    c.tick + p.tCL + p.tBURST ≤ s.busBusyUntil

theorem timed_startup (tick : ℕ) : (startup p tick).Timed where
  spaced := .nil
  opened := by
    intro c older h
    cases suffix_nil.mp h
  windows := nofun
  covered := ⟨nofun, nofun, nofun⟩
  openRow := fun _ _ => rfl
  actTicks := by
    intro r
    show replicate _ 0 = lastTicks _ []
    unfold lastTicks
    rw [nil_append, take_replicate, min_self]
  active := by
    intro r
    refine (Finset.card_eq_zero.mpr ?_).symm
    rw [Finset.eq_empty_iff_forall_notMem]
    exact fun b hb => mem_openBanks.mp hb rfl

theorem busFree_startup {tick : ℕ} (hroom : tick + p.span < 2 ^ 64) : (startup p tick).BusFree where
  latency := by
    unfold DRAMParams.span at hroom
    show p.tCL ≤ addTicks (addTicks (addTicks tick p.tRP) p.tRCD) p.tCL
    rw [addTicks_eq (a := tick) (by omega), addTicks_eq (a := tick + p.tRP) (by omega),
      addTicks_eq (by omega)]
    exact Nat.le_add_left ..
  bursts := nofun

/-- A precharge that is not too early. -/
theorem Timed.prechargeBank {preAt : ℕ} (h : s.Timed) (hopen : (s.banks r b).openRow ≠ none)
    (hpre : (s.banks r b).preAllowedAt ≤ preAt) (hroom : preAt + p.tRP < 2 ^ 64) :
    ∃ t, s.prechargeBank r b preAt = .ok t ∧ t.Timed ∧ (t.banks r b).openRow = none ∧
      (t.banks r b).colAllowedAt = (s.banks r b).colAllowedAt ∧
      (t.banks r b).actAllowedAt = max (s.banks r b).actAllowedAt (preAt + p.tRP) ∧
      t.curTick = s.curTick ∧ t.busBusyUntil = s.busBusyUntil ∧
      t.log = ⟨.PRE, r, b, preAt⟩ :: s.log := by
  have hmem : b ∈ openBanks s.banks r := mem_openBanks.mpr hopen
  have hpos : s.numBanksActive r ≠ 0 := by
    rw [h.active r]
    exact Finset.card_ne_zero_of_mem hmem
  unfold DRAMCtrl.prechargeBank
  rw [if_neg hopen, if_neg hpos]
  have hself : setBank s.banks r b ((s.banks r b).precharge p preAt) r b =
      (s.banks r b).precharge p preAt := setBank_self
  rw [← addTicks_eq hroom]
  refine ⟨_, rfl, ?_, congrArg (·.openRow) hself, (congrArg (·.colAllowedAt) hself).trans rfl,
    congrArg (·.actAllowedAt) hself, rfl, rfl, rfl⟩
  refine {
    spaced := ?_
    opened := h.opened.cons nofun
    windows := h.windows
    covered := h.covered.precharge hpre hroom
    openRow := ?_
    actTicks := h.actTicks
    active := ?_ }
  · refine pairwise_cons.mpr ⟨fun d hd => ?_, h.spaced⟩
    unfold Spaced
    cases hkind : d.kind with
    | ACT row =>
      rintro rfl rfl
      exact (h.covered.act d hd row hkind).2.1.trans hpre
    | PRE => trivial
    | burst isRead row => trivial
  · intro r' b'
    show (setBank _ r b _ r' b').openRow = if r' = r ∧ b' = b then none else _
    split
    · rename_i hb
      rw [hb.1, hb.2, setBank_self]
      rfl
    · rename_i hb
      rw [setBank_of_ne hb]
      exact h.openRow r' b'
  · intro r'
    show update s.numBanksActive r (s.numBanksActive r - 1) r' =
      (openBanks (setBank _ r b _) r').card
    rw [openBanks_precharge, update_apply]
    split
    · rw [h.active r, Finset.card_erase_of_mem hmem]
    · exact h.active r'

/-- The new activate is in the window, and the next one is far enough from the oldest there. -/
theorem limitActivates_spec {banks : p.RankId → p.BankId → DRAMBank} {acts : List ℕ}
    {actTick : ℕ} (hticks : s.actTicks r = lastTicks p.activationLimit acts)
    (hacts : ∀ x ∈ actTick :: acts, 0 < x ∧ x ≤ actTick)
    (hwindow : ∀ n x, p.activationLimit = n + 1 → acts[n]? = some x → x + p.tXAW ≤ actTick)
    (hbanks : ∀ b, actTick ≤ (banks r b).actAllowedAt) (hroom : actTick + p.tXAW < 2 ^ 64) :
    ∃ held : p.RankId → p.BankId → ℕ, (∀ r b, (banks r b).actAllowedAt ≤ held r b) ∧
      (∀ n x, p.activationLimit = n + 1 → (actTick :: acts)[n]? = some x →
        ∀ b, x + p.tXAW ≤ held r b) ∧
      s.limitActivates banks r actTick = .ok (lastTicks p.activationLimit (actTick :: acts),
        fun r b => { banks r b with actAllowedAt := held r b }) := by
  unfold limitActivates
  rw [hticks]
  cases hL : p.activationLimit with
  | zero => exact ⟨fun r b => (banks r b).actAllowedAt, fun _ _ => le_rfl, nofun, rfl⟩
  | succ n =>
    have hback : ¬ (acts[n]?.getD 0 ≠ 0 ∧ subTicks actTick (acts[n]?.getD 0) < p.tXAW) := by
      rintro ⟨hne, hlt⟩
      cases hx : acts[n]? with
      | none =>
        rw [hx] at hne
        exact hne rfl
      | some x =>
        rw [hx] at hlt
        have hle := hwindow n x hL hx
        rw [Option.getD_some, subTicks_eq (by omega) (by omega)] at hlt
        omega
    simp only [getLast?_lastTicks, if_neg hback, lastTicks_cons, Option.getD_some]
    obtain ⟨x, hx⟩ | hnone : (∃ x, (actTick :: acts)[n]? = some x) ∨
        (actTick :: acts)[n]? = none := by
      cases (actTick :: acts)[n]? with
      | none => exact .inr rfl
      | some x => exact .inl ⟨x, rfl⟩
    · obtain ⟨hpos, hle⟩ := hacts x (mem_of_getElem? hx)
      rw [hx]
      simp only [Option.getD_some, subTicks_eq hle (Nat.lt_of_add_right_lt hroom),
        addTicks_eq (Nat.lt_of_le_of_lt (Nat.add_le_add_right hle _) hroom)]
      split
      · -- the next activate is pushed out of the window
        refine ⟨fun r' b => (holdActivates banks r (fun _ => x + p.tXAW) r' b).actAllowedAt,
          fun r' b => le_holdActivates, ?_, ?_⟩
        · rintro _ _ ⟨⟩ hx' b
          cases hx.symm.trans hx'
          show x + p.tXAW ≤ (holdActivates banks r _ r b).actAllowedAt
          rw [holdActivates_self]
          exact le_max_left ..
        · congr 2
          funext r' b
          exact holdActivates_eq
      · refine ⟨fun r b => (banks r b).actAllowedAt, fun _ _ => le_rfl, ?_, rfl⟩
        rintro _ _ ⟨⟩ hx' b
        cases hx.symm.trans hx'
        exact le_trans (by omega) (hbanks b)
    · rw [hnone]
      refine ⟨fun r b => (banks r b).actAllowedAt, fun _ _ => le_rfl, ?_, rfl⟩
      rintro _ _ ⟨⟩ hx'
      cases hnone.symm.trans hx'

/-- An activate that is not too early. -/
theorem Timed.activateBank {actTick : ℕ} (h : s.Timed) (row : ℕ)
    (hclosed : (s.banks r b).openRow = none) (hact : (s.banks r b).actAllowedAt ≤ actTick)
    (hpos : 0 < actTick)
    (hroom : actTick + (p.tRAS + p.tRCD + p.tRRD + p.tRRD_L + p.tXAW) < 2 ^ 64) :
    ∃ t, s.activateBank r b actTick row = .ok t ∧ t.Timed ∧
      (t.banks r b).openRow = some row ∧ (t.banks r b).preAllowedAt = actTick + p.tRAS ∧
      (t.banks r b).colAllowedAt = max (actTick + p.tRCD) (s.banks r b).colAllowedAt ∧
      t.curTick = s.curTick ∧ t.busBusyUntil = s.busBusyUntil ∧
      t.log = ⟨.ACT row, r, b, actTick⟩ :: s.log := by
  have hmem : b ∉ openBanks s.banks r := fun hb => mem_openBanks.mp hb hclosed
  have hlen : ¬ (s.actTicks r).length ≠ p.activationLimit := by
    rw [h.actTicks r, length_lastTicks]
    exact not_not.mpr rfl
  have hcard : ¬ p.banksPerRank < s.numBanksActive r + 1 := by
    rw [h.active r, ← Finset.card_insert_of_notMem hmem, not_lt]
    exact (Finset.card_le_univ _).trans_eq (Fintype.card_fin _)
  -- the earlier activates of the rank
  have hearlier : ∀ d ∈ s.log, ∀ row', d.kind = .ACT row' → d.rank = r →
      d.tick + p.actDelay d.bank b ≤ actTick := by
    rintro d hd row' hkind rfl
    exact ((h.covered.act d hd row' hkind).2.2.2 b).trans hact
  have hle : ∀ d ∈ s.log, ∀ row', d.kind = .ACT row' → d.rank = r → d.tick ≤ actTick :=
    fun d hd row' hkind hr => (Nat.le_add_right ..).trans (hearlier d hd row' hkind hr)
  have hacts : ∀ x ∈ actTick :: actsOf r s.log, 0 < x ∧ x ≤ actTick := by
    refine forall_mem_cons.mpr ⟨⟨hpos, le_rfl⟩, fun x hx => ?_⟩
    obtain ⟨d, hd, row', hkind, hr, rfl⟩ := mem_actsOf hx
    exact ⟨(h.covered.act d hd row' hkind).1, hle d hd row' hkind hr⟩
  have hwindow : ∀ n x, p.activationLimit = n + 1 → (actsOf r s.log)[n]? = some x →
      x + p.tXAW ≤ actTick :=
    fun n x hn hx => (h.covered.window r n x hn hx b).trans hact
  have hbanks : ∀ b', actTick ≤ (activateBanks s.banks r b actTick row r b').actAllowedAt := by
    intro b'
    have hdelay := p.actDelay_le b b'
    have hnext : addTicks actTick (p.actDelay b b') ≤ _ :=
      actDelay_le_activateBanks (r := r) s.banks b row b'
    rw [addTicks_eq (by omega)] at hnext
    exact (Nat.le_add_right ..).trans hnext
  obtain ⟨held, hheld, hnext, hlimit⟩ :=
    limitActivates_spec (h.actTicks r) hacts hwindow hbanks (by omega)
  obtain ⟨hrow, hpre, hcol⟩ := activateBanks_self s.banks r b actTick row
  rw [addTicks_eq (by omega)] at hpre hcol
  unfold DRAMCtrl.activateBank
  rw [if_neg hlen, if_neg (not_not.mpr hclosed), if_neg hcard, hlimit]
  refine ⟨_, rfl, ?_, hrow, hpre, hcol, rfl, rfl, rfl⟩
  refine {
    spaced := ?_
    opened := h.opened.cons nofun
    windows := ?_
    covered := h.covered.activate hpos (by omega) hle hheld hnext
    openRow := ?_
    actTicks := ?_
    active := ?_ }
  · refine pairwise_cons.mpr ⟨fun d hd => ?_, h.spaced⟩
    unfold Spaced
    cases hkind : d.kind with
    | ACT row' =>
      intro hr
      have hgap := hearlier d hd row' hkind hr.symm
      refine ⟨(Nat.add_le_add_left (p.tRRD_le_actDelay d.bank b) _).trans hgap, fun hgroup => ?_⟩
      unfold DRAMParams.actDelay at hgap
      rwa [if_pos hgroup] at hgap
    | PRE =>
      rintro rfl rfl
      exact (h.covered.pre d hd hkind).trans hact
    | burst isRead row' => trivial
  · intro hL r' i x y hx hy
    rcases eq_or_ne r r' with rfl | hr
    · rw [actsOf_act_self] at hx hy
      cases i with
      | zero =>
        -- the new activate and the oldest in the window
        obtain ⟨n, hn⟩ := Nat.exists_eq_succ_of_ne_zero hL.ne'
        cases Option.some.inj hx
        rw [hn, zero_add] at hy
        exact hwindow n y hn hy
      | succ i =>
        rw [Nat.succ_add] at hy
        exact h.windows hL r i x y hx hy
    · rw [actsOf_act_of_ne hr] at hx hy
      exact h.windows hL r' i x y hx hy
  · intro r' b'
    show (activateBanks s.banks r b actTick row r' b').openRow =
      if r' = r ∧ b' = b then some row else _
    split
    · rename_i hb
      rw [hb.1, hb.2]
      exact hrow
    · rename_i hb
      rw [(activateBanks_of_ne hb).1]
      exact h.openRow r' b'
  · intro r'
    show update s.actTicks r _ r' = _
    rcases eq_or_ne r' r with rfl | hr
    · rw [update_self, actsOf_act_self]
    · rw [update_of_ne hr, actsOf_act_of_ne (Ne.symm hr)]
      exact h.actTicks r'
  · intro r'
    show update s.numBanksActive r (s.numBanksActive r + 1) r' = _
    rw [openBanks_activate, update_apply]
    split
    · rw [h.active r, Finset.card_insert_of_notMem hmem]
    · exact h.active r'

/-- Commands other than bursts leave the bus free. -/
theorem BusFree.of_log_cons {t : DRAMCtrl p} {c : DRAMCommand p} (h : s.BusFree)
    (hbus : t.busBusyUntil = s.busBusyUntil) (hlog : t.log = c :: s.log)
    (hc : ∀ isRead row, c.kind ≠ .burst isRead row) : t.BusFree where
  latency := h.latency.trans_eq hbus.symm
  bursts := by
    intro d hd isRead row hkind
    rw [hlog] at hd
    rw [hbus]
    rcases mem_cons.mp hd with rfl | hd
    · exact absurd hkind (hc isRead row)
    · exact h.bursts d hd isRead row hkind

/-- A burst on an open row when the bus is free. -/
theorem Timed.burst {pkt : DRAMPacket p} {cmdAt : ℕ} (h : s.Timed) (hfree : s.BusFree)
    (hopen : (s.banks pkt.rank pkt.bank).openRow = some pkt.row)
    (hcol : (s.banks pkt.rank pkt.bank).colAllowedAt ≤ cmdAt)
    (hbus : s.busBusyUntil ≤ cmdAt + p.tCL) : (s.burst pkt cmdAt).Timed := by
  have hrow : ∀ r b, ((s.burst pkt cmdAt).banks r b).openRow = (s.banks r b).openRow := by
    intro r b
    show (setBank _ _ _ _ r b).openRow = _
    by_cases hb : r = pkt.rank ∧ b = pkt.bank
    · rw [hb.1, hb.2, setBank_self]
      rfl
    · rw [setBank_of_ne hb]
      rfl
  refine {
    spaced := ?_
    opened := ?_
    windows := h.windows
    covered := h.covered.access
    openRow := ?_
    actTicks := h.actTicks
    active := fun r => (h.active r).trans (congrArg _ (openBanks_congr (hrow r)).symm) }
  · refine pairwise_cons.mpr ⟨fun d hd => ?_, h.spaced⟩
    unfold Spaced
    cases hkind : d.kind with
    | ACT row =>
      intro hr hb
      have hrcd := (h.covered.act d hd row hkind).2.2.1
      rw [← hr, ← hb] at hrcd
      exact hrcd.trans hcol
    | PRE => trivial
    | burst isRead row => exact (hfree.bursts d hd isRead row hkind).trans hbus
  · refine h.opened.cons ?_
    rintro _ _ ⟨⟩
    exact (h.openRow pkt.rank pkt.bank).symm.trans hopen
  · intro r b
    rw [hrow, h.openRow]
    show _ = if r = pkt.rank ∧ b = pkt.bank then rowOpen r b s.log else _
    split <;> rfl

/-- The open row of the packet's bank, if there is one, can be closed. -/
theorem Timed.closeRow {m : ℕ} {pkt : DRAMPacket p} (h : s.Timed) (hfree : s.BusFree)
    (hm : s.Until pkt m) (hroom : m + p.tRP < 2 ^ 64) :
    ∃ t, s.closeRow pkt = .ok t ∧ t.Timed ∧ t.BusFree ∧
      (t.banks pkt.rank pkt.bank).openRow = none ∧ t.curTick = s.curTick ∧
      t.busBusyUntil = s.busBusyUntil ∧ (t.banks pkt.rank pkt.bank).colAllowedAt ≤ m ∧
      (t.banks pkt.rank pkt.bank).actAllowedAt ≤ m + p.tRP := by
  obtain ⟨hcur, -, hcol, hpre, hact⟩ := hm
  unfold DRAMCtrl.closeRow
  split
  · rename_i hnone
    exact ⟨s, rfl, h, hfree, hnone, rfl, rfl, hcol, by omega⟩
  · rename_i hopen
    obtain ⟨t, heq, ht, hnone, hcol', hact', htick, hbus, hlog⟩ :=
      h.prechargeBank hopen (le_max_left _ s.curTick) (by omega)
    exact ⟨t, heq, ht, hfree.of_log_cons hbus hlog nofun, hnone, htick, hbus, by omega, by omega⟩

/-- The row of a packet can be opened at any tick from `curTick` on that the bank allows. -/
theorem Timed.openRowFor {m : ℕ} {pkt : DRAMPacket p} (h : s.Timed) (hfree : s.BusFree)
    (hpos : 0 < s.curTick) (hm : s.Until pkt m) (hroom : m + p.span < 2 ^ 64) :
    ∃ cmdAt t, s.openRowFor pkt = .ok (cmdAt, t) ∧ t.Timed ∧ t.BusFree ∧
      (t.banks pkt.rank pkt.bank).openRow = some pkt.row ∧
      (t.banks pkt.rank pkt.bank).colAllowedAt ≤ cmdAt ∧ cmdAt ≤ m + p.tRP + p.tRCD ∧
      (t.banks pkt.rank pkt.bank).preAllowedAt ≤ m + p.tRP + p.tRAS ∧
      t.curTick = s.curTick ∧ t.busBusyUntil = s.busBusyUntil := by
  unfold DRAMParams.span at hroom
  have ⟨hcur, _, hcol, hpre, _⟩ := hm
  unfold DRAMCtrl.openRowFor
  split
  · rename_i hrow
    exact ⟨_, _, rfl, h, hfree, hrow, le_max_left .., by omega, by omega, rfl, rfl⟩
  · obtain ⟨closed, heq, hclosed, hfree', hnone, htick, hbus, hcol', hact⟩ :=
      h.closeRow hfree hm (by omega)
    obtain ⟨t, heq', ht, hrow, hpre', hcol'', htick', hbus', hlog⟩ :=
      hclosed.activateBank pkt.row hnone (le_max_left _ closed.curTick) (by omega) (by omega)
    refine ⟨_, t, ?_, ht, hfree'.of_log_cons hbus' hlog nofun, hrow, le_rfl, by omega, by omega,
      htick'.trans htick, hbus'.trans hbus⟩
    rw [heq]
    show (closed.activateBank _ _ _ _ >>= _) = _
    rw [heq']
    rfl

/-- The auto-precharge is not too early either. -/
theorem Timed.closeAfter {pkt : DRAMPacket p} (h : s.Timed)
    (hopen : (s.banks pkt.rank pkt.bank).openRow ≠ none) (queue : List (DRAMPacket p))
    (hroom : max s.curTick (s.banks pkt.rank pkt.bank).preAllowedAt + p.tRP < 2 ^ 64) :
    ∃ t, s.closeAfter pkt queue = .ok t ∧ t.Timed ∧ ∀ c ∈ t.log, c ∈ s.log ∨ c.kind = .PRE := by
  unfold DRAMCtrl.closeAfter
  split
  · obtain ⟨t, heq, ht, -, -, -, -, -, hlog⟩ :=
      h.prechargeBank hopen (le_max_right s.curTick _) hroom
    refine ⟨t, heq, ht, fun c hc => ?_⟩
    rw [hlog] at hc
    rcases mem_cons.mp hc with rfl | hc
    · exact .inr rfl
    · exact .inl hc
  · exact ⟨s, rfl, h, fun c hc => .inl hc⟩

/-- The tick from which on the bank of a burst may be closed. -/
theorem preAllowedAt_burst_le (s : DRAMCtrl p) (pkt : DRAMPacket p) (cmdAt : ℕ) :
    ((s.burst pkt cmdAt).banks pkt.rank pkt.bank).preAllowedAt ≤
      max (s.banks pkt.rank pkt.bank).preAllowedAt
        (cmdAt + (p.tRTP + p.tCL + p.tBURST + p.tWR)) := by
  show (setBank _ _ _ _ pkt.rank pkt.bank).preAllowedAt ≤ _
  rw [setBank_self]
  refine max_le_max le_rfl ?_
  unfold addTicks
  split <;> omega

/-- The column command, once its row is open and the bus is free. -/
theorem Timed.columnAccess {cmdAt readyTime : ℕ} {pkt : DRAMPacket p}
    (h : s.Timed) (hfree : s.BusFree) (hrow : (s.banks pkt.rank pkt.bank).openRow = some pkt.row)
    (hcol : (s.banks pkt.rank pkt.bank).colAllowedAt ≤ cmdAt)
    (hbus : s.busBusyUntil ≤ cmdAt + p.tCL) (hready : readyTime = cmdAt + p.tCL + p.tBURST)
    (hlt : readyTime < 2 ^ 64)
    (hclose : max s.curTick ((s.burst pkt cmdAt).banks pkt.rank pkt.bank).preAllowedAt + p.tRP <
      2 ^ 64) (queue : List (DRAMPacket p)) :
    ∃ t, s.columnAccess pkt queue cmdAt readyTime = .ok t ∧ t.Timed ∧ t.BusFree := by
  unfold DRAMCtrl.columnAccess
  rw [subTicks_eq (by omega) hlt, if_neg (by omega)]
  have hburst := h.burst hfree hrow hcol hbus
  have hstill : ((s.burst pkt cmdAt).banks pkt.rank pkt.bank).openRow ≠ none := by
    rw [hburst.openRow]
    show (if pkt.rank = pkt.rank ∧ pkt.bank = pkt.bank then _ else _) ≠ none
    rw [if_pos ⟨rfl, rfl⟩, ← h.openRow, hrow]
    exact Option.some_ne_none _
  obtain ⟨t, heq, ht, hlog⟩ := hburst.closeAfter hstill queue hclose
  rw [heq]
  refine ⟨_, rfl, ⟨ht.spaced, ht.opened, ht.windows, ht.covered, ht.openRow, ht.actTicks,
    ht.active⟩, ?_, ?_⟩
  · show p.tCL ≤ readyTime
    omega
  · intro c hc isRead row hkind
    show c.tick + p.tCL + p.tBURST ≤ readyTime
    rcases hlog c hc with hc | hpre
    · rcases mem_cons.mp hc with rfl | hc
      · exact hready.ge
      · have := hfree.bursts c hc isRead row hkind
        omega
    · cases hkind.symm.trans hpre

/-- An access keeps the invariant, and none of its assertions fails. -/
theorem Timed.doDRAMAccess {m : ℕ} {pkt : DRAMPacket p} {queue : List (DRAMPacket p)}
    (h : s.Timed) (hfree : s.BusFree) (hpos : 0 < s.curTick) (hm : s.Until pkt m)
    (hroom : m + p.span < 2 ^ 64) :
    ∃ t, s.doDRAMAccess pkt queue = .ok t ∧ t.Timed ∧ t.BusFree := by
  obtain ⟨allowed, opened, heq, hopened, hfree', hrow, hcol, hlate, hpre, htick, hsame⟩ :=
    h.openRowFor hfree hpos hm hroom
  obtain ⟨hcur, huntil, -, -, -⟩ := hm
  unfold DRAMParams.span at hroom
  -- from here on `cmdAt` is the tick of the column command
  generalize hcmd : max allowed (subTicks opened.busBusyUntil p.tCL) = cmdAt
  have hfits := hcmd
  rw [subTicks_eq hfree'.latency (by omega)] at hfits
  have hready : addTicks (addTicks cmdAt p.tCL) p.tBURST = cmdAt + p.tCL + p.tBURST := by
    rw [addTicks_eq (a := cmdAt) (by omega), addTicks_eq (by omega)]
  have hclose : max opened.curTick
      ((opened.burst pkt cmdAt).banks pkt.rank pkt.bank).preAllowedAt + p.tRP < 2 ^ 64 := by
    have hle := preAllowedAt_burst_le opened pkt cmdAt
    omega
  obtain ⟨t, heq', ht⟩ := hopened.columnAccess hfree' hrow (by omega) (by omega) hready
    (by omega) hclose queue
  refine ⟨t, ?_, ht⟩
  unfold DRAMCtrl.doDRAMAccess
  rw [heq, Except.ok_bind]
  dsimp only
  rw [hcmd]
  exact heq'

/-- A step with room for its ticks. -/
theorem step_progress {a : Access p} (h : s.Timed ∧ s.BusFree) (ha : s.Roomy a) :
    ∃ t, s.step a = .ok t ∧ t.Timed ∧ t.BusFree := by
  obtain ⟨⟨-, hpos⟩, huntil⟩ := ha
  have hle : a.tick ≤ 2 ^ 64 - 1 - p.span := huntil.1
  exact Timed.doDRAMAccess ⟨h.1.spaced, h.1.opened, h.1.windows, h.1.covered, h.1.openRow,
    h.1.actTicks, h.1.active⟩ ⟨h.2.latency, h.2.bursts⟩ hpos huntil (by omega)

end DRAMCtrl

/-- **Command timing.**  In every run of accesses after `startup` whose ticks stay below 2 ^ 64,
each two commands are spaced as the parameters require, each burst finds its row open,
`activationLimit + 1` successive activates of a rank span at least `tXAW`, and no assertion fails at
the next access. -/
theorem dram_command_timing {p : DRAMParams} {tick : ℕ} {accesses : List (DRAMCtrl.Access p)}
    {s : DRAMCtrl p} (htick : tick + p.span < 2 ^ 64)
    (h : Runs (Within DRAMCtrl.step DRAMCtrl.Roomy) (.startup p tick) accesses s) :
    s.log.Pairwise Spaced ∧ Opened s.log ∧
    (0 < p.activationLimit → ∀ r i x y, (actsOf r s.log)[i]? = some x →
      (actsOf r s.log)[i + p.activationLimit]? = some y → y + p.tXAW ≤ x) ∧
    ∀ a, s.Roomy a → ∃ t, s.step a = .ok t := by
  have hs : s.Timed ∧ s.BusFree :=
    h.invariant_of_progress (P := fun s => s.Timed ∧ s.BusFree)
      (fun _ _ => DRAMCtrl.step_progress)
      ⟨DRAMCtrl.timed_startup tick, DRAMCtrl.busFree_startup htick⟩
  refine ⟨hs.1.spaced, hs.1.opened, hs.1.windows, fun a ha => ?_⟩
  obtain ⟨t, ht, -⟩ := DRAMCtrl.step_progress hs ha
  exact ⟨t, ht⟩

/-- Two ranks of four banks in two groups, at most two activates of a rank in 40 ticks. -/
def smallDRAM : DRAMParams where
  ranksPerChannel := 2
  banksPerRank := 4
  bankGroupsPerRank := 2
  burstSize := 64
  activationLimit := 2
  maxAccessesPerRow := 0
  pageMgmt := .openAdaptive
  tCS := 2
  tBURST := 4
  tCCD_L := 5
  tRCD := 13
  tCL := 13
  tRP := 13
  tRAS := 35
  tWR := 15
  tRTP := 7
  tRFC := 260
  tREFI := 7800
  tRRD := 5
  tRRD_L := 6
  tXAW := 40
  ranks_pow := ⟨1, rfl⟩
  refresh_gap := by decide
  groups := by decide

/-- Three activates of one rank: the third waits for the window of the first. -/
theorem dram_command_timing_window :
    let access : Fin 4 → DRAMCtrl.Access smallDRAM :=
      fun bank => ⟨1, ⟨true, (0 : Fin 2), bank, 7⟩, [⟨true, (0 : Fin 2), bank, 8⟩]⟩
    ∃ s : DRAMCtrl smallDRAM, Runs (Within DRAMCtrl.step DRAMCtrl.Roomy)
        (.startup smallDRAM 0) [access 0, access 1, access 2] s ∧
      actsOf (0 : Fin 2) s.log = [41, 6, 1] ∧
      s.log.Pairwise Spaced ∧ Opened s.log ∧
      (0 < smallDRAM.activationLimit → ∀ r i x y, (actsOf r s.log)[i]? = some x →
        (actsOf r s.log)[i + smallDRAM.activationLimit]? = some y → y + smallDRAM.tXAW ≤ x) ∧
      ∀ a, s.Roomy a → ∃ t, s.step a = .ok t := by
  intro access
  refine exists_runs_and_of_execWithin (by decide +kernel) ?_
  intro s hrun _
  exact dram_command_timing (by decide +kernel) hrun

/-- The longest `tRAS` that is a tick. -/
def longestRAS : DRAMParams := { smallDRAM with tRAS := 2 ^ 64 - 1 }

/-- Two reads of different rows of a bank: `preAllowedAt` wraps around, and the first row is closed
20 ticks after its activate. -/
theorem dram_precharge_wraps :
    let access : ℕ → DRAMCtrl.Access longestRAS :=
      fun row => ⟨100, ⟨true, (0 : Fin 2), (0 : Fin 4), row⟩, []⟩
    ∃ s : DRAMCtrl longestRAS, Runs (Within DRAMCtrl.step DRAMCtrl.Later)
        (.startup longestRAS 0) [access 7, access 8] s ∧
      ⟨.ACT 7, (0 : Fin 2), (0 : Fin 4), 100⟩ ∈ s.log ∧
      ⟨.PRE, (0 : Fin 2), (0 : Fin 4), 120⟩ ∈ s.log ∧ ¬ s.log.Pairwise Spaced := by
  intro access
  exact exists_runs_of_execWithin (by decide +kernel)
