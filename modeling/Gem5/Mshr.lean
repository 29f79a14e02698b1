/-
# Miss status holding registers

`MSHR` (`src/mem/cache/mshr.cc`, `mshr.hh`) collects the requests for a block that is
missing: those that the outstanding request will satisfy in `targets`, together with the
snoops that come after it, and in `deferredTargets` those that have to wait for
another request.  A snoop that comes while the request is in service leaves marks
(`postInvalidate`, `postDowngrade`), and the marks decide which list a request joins.

The commands carry the attributes of the table in `src/mem/packet.cc`.  The register is
driven by the cache in any order of calls; the cache numbers requests and snoops with
one counter, which is their `order`.  The ghost part of the system is the numbers of the
snoops that left a mark in this period of service, and whether `handleFill` was called.

Left out are the MSHRs of the caches above, whose `downstreamPending` is set and cleared
through the targets, and the ticks.

* `MemCmd`            — the commands with their attributes.
* `MSHR.handleSnoop`, `MSHR.allocateTarget`, `MSHR.handleFill` — as in the source.
* `Served`            — what holds of the lists.
-/
import Mathlib
import Gem5.TransitionSystem

open List

/-! ## Commands -/

inductive MemCmd
  | invalidCmd | readReq | readResp | readRespWithInvalidate | writeReq | writeResp | writeback
  | softPFReq | hardPFReq | softPFResp | hardPFResp | writeInvalidateReq | writeInvalidateResp
  | upgradeReq | scUpgradeReq | upgradeResp | scUpgradeFailReq | upgradeFailResp | readExReq
  | readExResp | loadLockedReq | storeCondReq | storeCondFailReq | storeCondResp | swapReq
  | swapResp | messageReq | messageResp | invalidDestError | badAddressError
  | functionalReadError | functionalWriteError | printReq | flushReq | invalidationReq
  deriving DecidableEq, Repr

namespace MemCmd

def needsExclusive : MemCmd → Bool
  | writeReq | writeResp | writeback | writeInvalidateReq | writeInvalidateResp | upgradeReq
  | scUpgradeReq | upgradeResp | scUpgradeFailReq | upgradeFailResp | readExReq | readExResp
  | storeCondReq | storeCondFailReq | storeCondResp | swapReq | swapResp | flushReq
  | invalidationReq => true
  | _ => false

def isUpgrade : MemCmd → Bool
  | upgradeReq | scUpgradeReq | upgradeResp => true
  | _ => false

def isInvalidate : MemCmd → Bool
  | readRespWithInvalidate | writeInvalidateReq | upgradeReq | scUpgradeReq | scUpgradeFailReq
  | readExReq | invalidationReq => true
  | _ => false

def needsResponse : MemCmd → Bool
  | readReq | writeReq | softPFReq | hardPFReq | writeInvalidateReq | upgradeReq | scUpgradeReq
  | scUpgradeFailReq | readExReq | loadLockedReq | storeCondReq | storeCondFailReq | swapReq
  | messageReq => true
  | _ => false

def replaceUpgrade : MemCmd → MemCmd
  | upgradeReq => readExReq
  | scUpgradeReq => scUpgradeFailReq
  | storeCondReq => storeCondFailReq
  | cmd => cmd

/-- The commands that `replaceUpgrade` replaces. -/
def Replaced (cmd : MemCmd) : Prop := cmd = upgradeReq ∨ cmd = scUpgradeReq ∨ cmd = storeCondReq

theorem not_replaced_replaceUpgrade (cmd : MemCmd) : ¬ cmd.replaceUpgrade.Replaced := by
  unfold Replaced
  cases cmd <;> decide

theorem needsExclusive_replaceUpgrade (cmd : MemCmd) :
    cmd.replaceUpgrade.needsExclusive = cmd.needsExclusive := by
  cases cmd <;> rfl

end MemCmd

/-! ## Target lists -/

inductive TargetSource
  | fromCPU
  | fromSnoop
  | fromPrefetcher
  deriving DecidableEq, Repr

structure MshrTarget where
  cmd : MemCmd
  order : ℕ
  source : TargetSource
  deriving DecidableEq, Repr

structure TargetList where
  list : List MshrTarget := []
  needsExclusive : Bool := false
  hasUpgrade : Bool := false
  deriving DecidableEq, Repr

namespace TargetList

variable (l : TargetList)

def resetFlags : TargetList :=
  { l with needsExclusive := false, hasUpgrade := false }

def isReset : Bool := !l.needsExclusive && !l.hasUpgrade

def add (t : MshrTarget) : TargetList where
  list := l.list ++ [t]
  needsExclusive := l.needsExclusive || t.source != .fromSnoop && t.cmd.needsExclusive
  hasUpgrade := l.hasUpgrade ||
    t.source != .fromSnoop && (t.cmd.isUpgrade || t.cmd == .storeCondReq)

def replaceUpgrades : TargetList :=
  if l.hasUpgrade then
    { l with
      list := l.list.map fun t => { t with cmd := t.cmd.replaceUpgrade }
      hasUpgrade := false }
  else l

/-- The orders of the requests from the CPU side. -/
def cpuOrders : List ℕ :=
  (l.list.filter (·.source == .fromCPU)).map MshrTarget.order

variable {l : TargetList} {t : MshrTarget}

theorem cpuOrders_add_cpu (h : t.source = .fromCPU) :
    (l.add t).cpuOrders = l.cpuOrders ++ [t.order] := by
  simp [cpuOrders, add, h]

theorem cpuOrders_add_snoop (h : t.source = .fromSnoop) : (l.add t).cpuOrders = l.cpuOrders := by
  simp [cpuOrders, add, h]

theorem cpuOrders_replaceUpgrades : l.replaceUpgrades.cpuOrders = l.cpuOrders := by
  rw [replaceUpgrades]
  split
  · rw [cpuOrders, filter_map, map_map]
    rfl
  · rfl

/-- A replaced target keeps its place and whether it needs an exclusive copy. -/
theorem mem_replaceUpgrades (h : t ∈ l.replaceUpgrades.list) : ∃ u ∈ l.list, t.source = u.source ∧
    t.order = u.order ∧ t.cmd.needsExclusive = u.cmd.needsExclusive ∧
      (t.cmd.Replaced → l.hasUpgrade = false ∧ u.cmd.Replaced) := by
  rw [replaceUpgrades] at h
  split at h
  · obtain ⟨u, hu, rfl⟩ := mem_map.mp h
    refine ⟨u, hu, rfl, rfl, u.cmd.needsExclusive_replaceUpgrade, ?_⟩
    exact fun hr => absurd hr u.cmd.not_replaced_replaceUpgrade
  · rename_i hflag
    exact ⟨t, h, rfl, rfl, rfl, fun hr => ⟨Bool.not_eq_true _ ▸ hflag, hr⟩⟩

theorem mem_add {u : MshrTarget} : u ∈ (l.add t).list ↔ u ∈ l.list ∨ u = t := by
  rw [add, mem_append, mem_singleton]

/-- The flag for exclusive copies says what is in the list. -/
def ExclusiveFlagged : Prop :=
  ∀ t ∈ l.list, t.source ≠ .fromSnoop → t.cmd.needsExclusive = true → l.needsExclusive = true

/-- The flag for upgrades is set if `replaceUpgrades` would find any. -/
def UpgradeFlagged : Prop :=
  ∀ t ∈ l.list, t.source ≠ .fromSnoop → t.cmd.Replaced → l.hasUpgrade = true

theorem ExclusiveFlagged.add (h : l.ExclusiveFlagged) (t : MshrTarget) :
    (l.add t).ExclusiveFlagged := by
  intro u hu hsource hexcl
  rcases mem_add.mp hu with hu | rfl
  · have := h u hu hsource hexcl
    simp [TargetList.add, this]
  · simp [TargetList.add, hsource, hexcl]

theorem UpgradeFlagged.add (h : l.UpgradeFlagged) (t : MshrTarget) : (l.add t).UpgradeFlagged := by
  intro u hu hsource hrep
  rcases mem_add.mp hu with hu | rfl
  · have := h u hu hsource hrep
    simp [TargetList.add, this]
  · have hupgrade : (u.cmd.isUpgrade || u.cmd == .storeCondReq) = true := by
      rcases hrep with h | h | h <;> rw [h] <;> rfl
    simp [TargetList.add, hsource, hupgrade]

theorem ExclusiveFlagged.replaceUpgrades (h : l.ExclusiveFlagged) :
    l.replaceUpgrades.ExclusiveFlagged := by
  intro t ht hsource hexcl
  obtain ⟨u, hu, hs, -, he, -⟩ := mem_replaceUpgrades ht
  have hflag := h u hu (hs ▸ hsource) (he ▸ hexcl)
  rw [TargetList.replaceUpgrades]
  split <;> exact hflag

theorem replaceUpgrades_eq_nil (h : l.list = []) : l.replaceUpgrades.list = [] := by
  rw [TargetList.replaceUpgrades]
  split
  · exact map_eq_nil_iff.mpr h
  · exact h

/-- After `replaceUpgrades` there is no upgrade left. -/
theorem UpgradeFlagged.not_replaced (h : l.UpgradeFlagged) :
    ∀ t ∈ l.replaceUpgrades.list, t.source ≠ .fromSnoop → ¬ t.cmd.Replaced := by
  intro t ht hsource hrep
  obtain ⟨u, hu, hs, -, -, hup⟩ := mem_replaceUpgrades ht
  obtain ⟨hnone, hurep⟩ := hup hrep
  have hflag := h u hu (hs ▸ hsource) hurep
  rw [hnone] at hflag
  cases hflag

theorem UpgradeFlagged.replaceUpgrades (h : l.UpgradeFlagged) :
    l.replaceUpgrades.UpgradeFlagged :=
  fun t ht hsource hrep => absurd hrep (h.not_replaced t ht hsource)

end TargetList

/-! ## The register -/

/-- What a snoop's packet says. -/
structure SnoopPacket where
  cmd : MemCmd
  isExpressSnoop : Bool := false
  isUncacheable : Bool := false

structure MSHR where
  targets : TargetList := {}
  deferredTargets : TargetList := {}
  inService : Bool := false
  isForward : Bool := false
  isUncacheable : Bool := false
  downstreamPending : Bool := false
  pendingDirty : Bool := false
  postInvalidate : Bool := false
  postDowngrade : Bool := false

namespace MSHR

variable (m : MSHR)

def allocate (cmd : MemCmd) (isUncacheable : Bool) (order : ℕ) : Except Abort MSHR :=
  if m.targets.isReset && m.deferredTargets.isReset then
    let source := if cmd = .hardPFReq then TargetSource.fromPrefetcher else .fromCPU
    .ok { m with
      isForward := false
      isUncacheable
      inService := false
      downstreamPending := false
      targets := m.targets.add ⟨cmd, order, source⟩ }
  else .error .assertion

/-- The first target is read if there is one in all. -/
def isForwardNoResponse : Except Abort Bool :=
  if m.targets.list.length + m.deferredTargets.list.length ≠ 1 then .ok false
  else
    match m.targets.list with
    | [] => .error .undefined
    | tgt :: _ => .ok (tgt.source == .fromCPU && !tgt.cmd.needsResponse)

def popTarget : Except Abort MSHR :=
  match m.targets.list with
  | [] => .error .undefined
  | _ :: rest => .ok { m with targets := { m.targets with list := rest } }

def markInService (pendingDirtyResp : Bool) : Except Abort MSHR := do
  if m.inService then .error .assertion
  else if ← m.isForwardNoResponse then m.popTarget
  else
    return { m with
      inService := true
      pendingDirty := m.targets.needsExclusive || pendingDirtyResp
      postInvalidate := false
      postDowngrade := false }

/-- Whether a request has to wait for another one. -/
def defers (cmd : MemCmd) : Bool :=
  m.inService && (!m.deferredTargets.list.isEmpty || m.postInvalidate ||
    cmd.needsExclusive && (!m.pendingDirty || m.postDowngrade || m.isForward))

def allocateTarget (cmd : MemCmd) (order : ℕ) : Except Abort MSHR :=
  if cmd = .hardPFReq ∨ m.isUncacheable then .error .assertion
  else if m.defers cmd then
    let cmd := if m.postInvalidate then cmd.replaceUpgrade else cmd
    .ok { m with deferredTargets := m.deferredTargets.add ⟨cmd, order, .fromCPU⟩ }
  else .ok { m with targets := m.targets.add ⟨cmd, order, .fromCPU⟩ }

/-- The snoop comes before the request of this register. -/
def precedes (pkt : SnoopPacket) : Bool :=
  !m.inService || pkt.isExpressSnoop && m.downstreamPending

/-- The snoop takes the block that is awaited. -/
def takesBlock (pkt : SnoopPacket) : Bool :=
  (m.pendingDirty || pkt.cmd.isInvalidate) && pkt.cmd.needsExclusive

/-- The snoop gets a shared copy. -/
def sharesBlock (pkt : SnoopPacket) : Bool := !pkt.cmd.needsExclusive && !pkt.isUncacheable

def handleSnoop (pkt : SnoopPacket) (order : ℕ) : Bool × MSHR :=
  if m.precedes pkt then
    (false,
      if pkt.cmd.needsExclusive then
        { m with
          targets := m.targets.replaceUpgrades
          deferredTargets := m.deferredTargets.replaceUpgrades }
      else m)
  else
    let m := if pkt.cmd.needsExclusive then
        { m with deferredTargets := m.deferredTargets.replaceUpgrades }
      else m
    if m.postInvalidate then (true, m)
    else
      (true,
        { m with
          targets := if m.pendingDirty || pkt.cmd.isInvalidate then
              m.targets.add ⟨pkt.cmd, order, .fromSnoop⟩
            else m.targets
          postInvalidate := m.takesBlock pkt
          postDowngrade := m.postDowngrade || sharesBlock pkt })

/-- Whether the snoop leaves a mark. -/
def marks (pkt : SnoopPacket) : Bool :=
  !m.precedes pkt && !m.postInvalidate && (m.takesBlock pkt || sharesBlock pkt)

def handleFill (sharedAsserted : Bool) : Except Abort MSHR :=
  if sharedAsserted then .ok m
  else if !m.inService then .error .assertion
  else if (m.postInvalidate || m.postDowngrade) || !m.deferredTargets.needsExclusive then .ok m
  else if m.targets.needsExclusive || m.downstreamPending then .error .assertion
  else
    .ok { m with
      targets :=
        { m.targets with list := m.targets.list ++ m.deferredTargets.list, needsExclusive := true }
      deferredTargets := {} }

/-- If there are deferred targets they become the targets, and the register leaves service. -/
def promoteDeferredTargets : Except Abort MSHR :=
  if m.targets.list ≠ [] then .error .assertion
  else if m.deferredTargets.list = [] then .ok m
  else
    .ok { m with
      targets := m.deferredTargets
      deferredTargets := m.targets.resetFlags
      inService := false }

end MSHR

/-! ## The system -/

inductive MshrOp
  | allocateTarget (cmd : MemCmd)
  | handleSnoop (pkt : SnoopPacket)
  | markInService (isForward pendingDirtyResp : Bool)
  | handleFill (sharedAsserted : Bool)
  | popTarget
  | promoteDeferredTargets
  | setDownstreamPending (pending : Bool)

/-- The register and the counter of the cache; as ghosts the snoops that left a mark in this
period of service, and whether `handleFill` was called in it. -/
structure MshrSystem where
  mshr : MSHR
  counter : ℕ
  marked : List ℕ := []
  filled : Bool := false

namespace MshrSystem

def step (s : MshrSystem) : MshrOp → Except Abort MshrSystem
  | .allocateTarget cmd => do
    let mshr ← s.mshr.allocateTarget cmd s.counter
    return { s with mshr, counter := s.counter + 1 }
  | .handleSnoop pkt =>
    .ok { s with
      mshr := (s.mshr.handleSnoop pkt s.counter).2
      counter := s.counter + 1
      marked := if s.mshr.marks pkt then s.counter :: s.marked else s.marked }
  | .markInService isForward pendingDirtyResp => do
    let mshr ← { s.mshr with isForward }.markInService pendingDirtyResp
    return { s with mshr, marked := [], filled := false }
  | .handleFill sharedAsserted => do
    let mshr ← s.mshr.handleFill sharedAsserted
    return { s with mshr, filled := true }
  | .popTarget => do
    let mshr ← s.mshr.popTarget
    return { s with mshr }
  | .promoteDeferredTargets => do
    let mshr ← s.mshr.promoteDeferredTargets
    return { s with mshr }
  | .setDownstreamPending pending =>
    .ok { s with mshr := { s.mshr with downstreamPending := pending } }

/-- The requests are in the order of their arrival.  If a snoop took the block, no deferred request
is an upgrade.  Before the fill, a request for an exclusive copy is only there if one is awaited,
and came before all snoops that left a mark. -/
structure Served (s : MshrSystem) : Prop where
  in_order : (s.mshr.targets.cpuOrders ++ s.mshr.deferredTargets.cpuOrders).Pairwise (· < ·)
  replaced : s.mshr.inService = true → s.mshr.postInvalidate = true →
    ∀ t ∈ s.mshr.deferredTargets.list, t.source = .fromCPU → ¬ t.cmd.Replaced
  exclusive : s.mshr.inService = true → s.filled = false →
    ∀ t ∈ s.mshr.targets.list, t.source = .fromCPU → t.cmd.needsExclusive = true →
      s.mshr.pendingDirty = true ∧ ∀ n ∈ s.marked, t.order < n

/-! ## The invariant -/

/-- The flags of the lists are right, only a register in service defers, and the marks are those
of the snoops. -/
structure Sound (s : MshrSystem) : Prop where
  served : s.Served
  targets_lt : ∀ t ∈ s.mshr.targets.list, t.order < s.counter
  deferred_lt : ∀ t ∈ s.mshr.deferredTargets.list, t.order < s.counter
  idle : s.mshr.inService = false → s.mshr.deferredTargets.list = []
  targets_flagged : s.mshr.targets.ExclusiveFlagged
  deferred_flagged : s.mshr.deferredTargets.ExclusiveFlagged
  deferred_cpu : ∀ t ∈ s.mshr.deferredTargets.list, t.source = .fromCPU
  upgrade_flagged : s.mshr.deferredTargets.UpgradeFlagged
  marked : s.mshr.inService = true → s.marked ≠ [] →
    s.mshr.postInvalidate = true ∨ s.mshr.postDowngrade = true

variable {s t : MshrSystem}

theorem lt_of_mem_cpuOrders {l : TargetList} {n : ℕ} (h : ∀ t ∈ l.list, t.order < n) :
    ∀ k ∈ l.cpuOrders, k < n := by
  intro k hk
  obtain ⟨t, ht, rfl⟩ := mem_map.mp hk
  exact h t (mem_filter.mp ht).1

/-- The next number can be appended to the orders of a list. -/
theorem pairwise_append_of_lt {l : List ℕ} {n : ℕ} (h : l.Pairwise (· < ·)) (hn : ∀ k ∈ l, k < n) :
    (l ++ [n]).Pairwise (· < ·) := by
  refine pairwise_append.mpr ⟨h, pairwise_singleton _ _, ?_⟩
  intro k hk m hm
  obtain rfl := mem_singleton.mp hm
  exact hn k hk

theorem lt_counter_of_add {l : TargetList} {t : MshrTarget} {n : ℕ}
    (h : ∀ u ∈ l.list, u.order < n) (ht : t.order = n) : ∀ u ∈ (l.add t).list, u.order < n + 1 := by
  intro u hu
  rcases TargetList.mem_add.mp hu with hu | rfl
  · exact (h u hu).trans n.lt_succ_self
  · omega

section

variable (h : s.Sound)

include h

/-- A request that has to wait. -/
theorem Sound.defer {cmd : MemCmd} (hservice : s.mshr.inService = true)
    (hcmd : s.mshr.postInvalidate = true → ¬ cmd.Replaced) :
    Sound { s with
      mshr := { s.mshr with
        deferredTargets := s.mshr.deferredTargets.add ⟨cmd, s.counter, .fromCPU⟩ }
      counter := s.counter + 1 } where
  served := by
    refine ⟨?_, ?_, h.served.exclusive⟩
    · rw [TargetList.cpuOrders_add_cpu rfl, ← append_assoc]
      apply pairwise_append_of_lt h.served.in_order
      intro k hk
      rcases mem_append.mp hk with hk | hk
      · exact lt_of_mem_cpuOrders h.targets_lt k hk
      · exact lt_of_mem_cpuOrders h.deferred_lt k hk
    · intro _ hpost t ht hsource
      rcases TargetList.mem_add.mp ht with ht | rfl
      · exact h.served.replaced hservice hpost t ht hsource
      · exact hcmd hpost
  targets_lt := fun t ht => (h.targets_lt t ht).trans s.counter.lt_succ_self
  deferred_lt := lt_counter_of_add h.deferred_lt rfl
  idle := by
    intro hidle
    rw [hservice] at hidle
    cases hidle
  targets_flagged := h.targets_flagged
  deferred_flagged := h.deferred_flagged.add _
  deferred_cpu := by
    intro t ht
    rcases TargetList.mem_add.mp ht with ht | rfl
    · exact h.deferred_cpu t ht
    · rfl
  upgrade_flagged := h.upgrade_flagged.add _
  marked := h.marked

/-- A request that need not wait: nothing is deferred, and it does not need an exclusive copy or
one is awaited and no snoop left a mark. -/
theorem Sound.join {cmd : MemCmd} (hjoin : s.mshr.defers cmd = false) :
    Sound { s with
      mshr := { s.mshr with targets := s.mshr.targets.add ⟨cmd, s.counter, .fromCPU⟩ }
      counter := s.counter + 1 } :=
  { h with
    served := by
      have hempty : s.mshr.deferredTargets.list = [] := by
        cases hservice : s.mshr.inService with
        | false => exact h.idle hservice
        | true =>
          rw [MSHR.defers, hservice] at hjoin
          simp only [Bool.true_and, Bool.or_eq_false_iff, Bool.not_eq_false'] at hjoin
          exact isEmpty_iff.mp hjoin.1.1
      refine ⟨?_, h.served.replaced, ?_⟩
      · have hnone : s.mshr.deferredTargets.cpuOrders = [] := by
          rw [TargetList.cpuOrders, hempty]
          rfl
        have horder := h.served.in_order
        rw [TargetList.cpuOrders_add_cpu rfl, hnone, append_nil]
        rw [hnone, append_nil] at horder
        exact pairwise_append_of_lt horder (lt_of_mem_cpuOrders h.targets_lt)
      · intro hservice hfilled t ht hsource hexcl
        rcases TargetList.mem_add.mp ht with ht | rfl
        · exact h.served.exclusive hservice hfilled t ht hsource hexcl
        · have hservice' : s.mshr.inService = true := hservice
          rw [MSHR.defers, hservice'] at hjoin
          simp only [Bool.true_and, Bool.or_eq_false_iff, Bool.not_eq_false', hexcl] at hjoin
          obtain ⟨⟨-, hinv⟩, ⟨hdirty, hdown⟩, -⟩ := hjoin
          refine ⟨hdirty, ?_⟩
          intro n hn
          rcases h.marked hservice (ne_nil_of_mem hn) with hpost | hpost
          · rw [hinv] at hpost
            cases hpost
          · rw [hdown] at hpost
            cases hpost
    targets_lt := lt_counter_of_add h.targets_lt rfl
    deferred_lt := fun t ht => (h.deferred_lt t ht).trans s.counter.lt_succ_self
    targets_flagged := h.targets_flagged.add _ }

theorem Sound.allocateTarget {cmd : MemCmd}
    (hstep : s.step (.allocateTarget cmd) = .ok t) : t.Sound := by
  obtain ⟨m, hm, rfl⟩ := Except.bind_pure_eq_ok hstep
  rw [MSHR.allocateTarget] at hm
  split at hm
  · cases hm
  split at hm
  · rename_i hdefer
    cases hm
    have hservice : s.mshr.inService = true := by
      rw [MSHR.defers, Bool.and_eq_true] at hdefer
      exact hdefer.1
    apply h.defer hservice
    intro hpost
    rw [if_pos hpost]
    exact cmd.not_replaced_replaceUpgrade
  · rename_i hjoin
    cases hm
    exact h.join (Bool.not_eq_true _ ▸ hjoin)

/-! ### Snoops -/

theorem Sound.replaceTargets :
    Sound { s with mshr := { s.mshr with targets := s.mshr.targets.replaceUpgrades } } :=
  { h with
    served := by
      refine ⟨?_, h.served.replaced, ?_⟩
      · rw [TargetList.cpuOrders_replaceUpgrades]
        exact h.served.in_order
      · intro hservice hfilled t ht hsource hexcl
        obtain ⟨u, hu, hs, ho, he, -⟩ := TargetList.mem_replaceUpgrades ht
        rw [ho]
        exact h.served.exclusive hservice hfilled u hu (hs ▸ hsource) (he ▸ hexcl)
    targets_lt := by
      intro t ht
      obtain ⟨u, hu, -, ho, -, -⟩ := TargetList.mem_replaceUpgrades ht
      exact ho ▸ h.targets_lt u hu
    targets_flagged := h.targets_flagged.replaceUpgrades }

theorem Sound.replaceDeferred :
    Sound { s with
      mshr := { s.mshr with deferredTargets := s.mshr.deferredTargets.replaceUpgrades } } :=
  { h with
    served := by
      refine ⟨?_, ?_, h.served.exclusive⟩
      · rw [TargetList.cpuOrders_replaceUpgrades]
        exact h.served.in_order
      · intro _ _ t ht hsource
        apply h.upgrade_flagged.not_replaced t ht
        rw [hsource]
        decide
    deferred_lt := by
      intro t ht
      obtain ⟨u, hu, -, ho, -, -⟩ := TargetList.mem_replaceUpgrades ht
      exact ho ▸ h.deferred_lt u hu
    idle := fun hidle => TargetList.replaceUpgrades_eq_nil (h.idle hidle)
    deferred_flagged := h.deferred_flagged.replaceUpgrades
    deferred_cpu := by
      intro t ht
      obtain ⟨u, hu, hs, -, -, -⟩ := TargetList.mem_replaceUpgrades ht
      exact hs ▸ h.deferred_cpu u hu
    upgrade_flagged := h.upgrade_flagged.replaceUpgrades }

/-- The counter goes on. -/
theorem Sound.count : Sound { s with counter := s.counter + 1 } :=
  { h with
    served := { h.served with }
    targets_lt := fun t ht => (h.targets_lt t ht).trans s.counter.lt_succ_self
    deferred_lt := fun t ht => (h.deferred_lt t ht).trans s.counter.lt_succ_self }

/-- A snoop that is to be replayed. -/
theorem Sound.replay (cmd : MemCmd) :
    Sound { s with
      mshr := { s.mshr with targets := s.mshr.targets.add ⟨cmd, s.counter, .fromSnoop⟩ }
      counter := s.counter + 1 } :=
  { h with
    served := by
      refine ⟨?_, h.served.replaced, ?_⟩
      · rw [TargetList.cpuOrders_add_snoop rfl]
        exact h.served.in_order
      · intro hservice hfilled t ht hsource hexcl
        rcases TargetList.mem_add.mp ht with ht | rfl
        · exact h.served.exclusive hservice hfilled t ht hsource hexcl
        · cases hsource
    targets_lt := lt_counter_of_add h.targets_lt rfl
    deferred_lt := fun t ht => (h.deferred_lt t ht).trans s.counter.lt_succ_self
    targets_flagged := h.targets_flagged.add _ }

/-- A snoop leaves its marks, in a state where no upgrade is deferred if it takes the block. -/
theorem Sound.mark {n : ℕ} {inv down : Bool}
    (hn : ∀ t ∈ s.mshr.targets.list, t.source = .fromCPU → t.order < n)
    (hpost : s.mshr.postInvalidate = false)
    (hinv : inv = true → ∀ t ∈ s.mshr.deferredTargets.list, t.source = .fromCPU →
      ¬ t.cmd.Replaced) :
    Sound { s with
      mshr := { s.mshr with
        postInvalidate := inv
        postDowngrade := s.mshr.postDowngrade || down }
      marked := if inv || down then n :: s.marked else s.marked } :=
  { h with
    served := by
      refine ⟨h.served.in_order, fun _ => hinv, ?_⟩
      intro hservice hfilled t ht hsource hexcl
      obtain ⟨hdirty, hbefore⟩ := h.served.exclusive hservice hfilled t ht hsource hexcl
      refine ⟨hdirty, ?_⟩
      intro m hm
      -- either the snoop itself, which comes after all targets, or an earlier one
      split at hm
      · rcases mem_cons.mp hm with rfl | hm
        · exact hn t ht hsource
        · exact hbefore m hm
      · exact hbefore m hm
    marked := by
      intro hservice hmarked
      split at hmarked
      · rename_i hmarks
        rcases Bool.or_eq_true_iff.mp hmarks with hi | hd
        · exact .inl hi
        · exact .inr (by rw [hd, Bool.or_true])
      · rcases h.marked hservice hmarked with hold | hold
        · rw [hpost] at hold
          cases hold
        · exact .inr (by rw [hold, Bool.true_or]) }

/-- A snoop that comes after the request, before any other took the block. -/
theorem Sound.snoopAfter (pkt : SnoopPacket) (hpost : s.mshr.postInvalidate = false)
    (hinv : pkt.cmd.needsExclusive = true → ∀ t ∈ s.mshr.deferredTargets.list,
      t.source = .fromCPU → ¬ t.cmd.Replaced) :
    Sound { s with
      mshr := { s.mshr with
        targets := if s.mshr.pendingDirty || pkt.cmd.isInvalidate then
            s.mshr.targets.add ⟨pkt.cmd, s.counter, .fromSnoop⟩
          else s.mshr.targets
        postInvalidate := s.mshr.takesBlock pkt
        postDowngrade := s.mshr.postDowngrade || MSHR.sharesBlock pkt }
      counter := s.counter + 1
      marked := if s.mshr.takesBlock pkt || MSHR.sharesBlock pkt then s.counter :: s.marked
        else s.marked } := by
  have hinv' : s.mshr.takesBlock pkt = true → ∀ t ∈ s.mshr.deferredTargets.list,
      t.source = .fromCPU → ¬ t.cmd.Replaced := by
    intro htakes
    rw [MSHR.takesBlock, Bool.and_eq_true] at htakes
    exact hinv htakes.2
  split
  · refine (h.replay pkt.cmd).mark ?_ hpost hinv'
    intro t ht hsource
    rcases TargetList.mem_add.mp ht with ht | rfl
    · exact h.targets_lt t ht
    · cases hsource
  · exact h.count.mark (fun t ht _ => h.targets_lt t ht) hpost hinv'

theorem Sound.handleSnoop {pkt : SnoopPacket}
    (hstep : s.step (.handleSnoop pkt) = .ok t) : t.Sound := by
  cases hstep
  rw [MSHR.handleSnoop, MSHR.marks]
  cases hprec : s.mshr.precedes pkt with
  | true =>
    cases pkt.cmd.needsExclusive with
    | true => exact h.replaceTargets.replaceDeferred.count
    | false => exact h.count
  | false =>
    cases hpost : s.mshr.postInvalidate with
    | true =>
      -- the block is gone already: only the deferred upgrades are affected
      cases pkt.cmd.needsExclusive with
      | true => simpa [hpost] using h.replaceDeferred.count
      | false => simpa [hpost] using h.count
    | false =>
      cases hexcl : pkt.cmd.needsExclusive with
      | true =>
        have hnone : ∀ t ∈ s.mshr.deferredTargets.replaceUpgrades.list, t.source = .fromCPU →
            ¬ t.cmd.Replaced := by
          intro t ht hsource
          apply h.upgrade_flagged.not_replaced t ht
          rw [hsource]
          decide
        simpa [hpost, MSHR.takesBlock] using h.replaceDeferred.snoopAfter pkt hpost fun _ => hnone
      | false =>
        have hnone := h.snoopAfter pkt hpost fun hx => absurd (hexcl.symm.trans hx) (by decide)
        simpa [hpost] using hnone

/-! ### The other calls -/

theorem Sound.pop {first : MshrTarget} {rest : List MshrTarget}
    (hlist : s.mshr.targets.list = first :: rest) :
    Sound { s with mshr := { s.mshr with targets := { s.mshr.targets with list := rest } } } := by
  have hsub : ∀ t ∈ rest, t ∈ s.mshr.targets.list := by
    intro t ht
    rw [hlist]
    exact mem_cons_of_mem _ ht
  exact
    { h with
      served := by
        refine ⟨?_, h.served.replaced, ?_⟩
        · refine h.served.in_order.sublist ?_
          apply List.Sublist.append_right
          rw [TargetList.cpuOrders, TargetList.cpuOrders, hlist]
          exact ((sublist_cons_self first rest).filter _).map _
        · intro hservice hfilled t ht
          exact h.served.exclusive hservice hfilled t (hsub t ht)
      targets_lt := fun t ht => h.targets_lt t (hsub t ht)
      targets_flagged := fun t ht => h.targets_flagged t (hsub t ht) }

theorem Sound.popTarget (hstep : s.step .popTarget = .ok t) : t.Sound := by
  obtain ⟨m, hm, rfl⟩ := Except.bind_pure_eq_ok hstep
  rw [MSHR.popTarget] at hm
  split at hm
  · cases hm
  · rename_i hlist
    cases hm
    exact h.pop hlist

/-- A register that is not in service awaits nothing. -/
theorem Sound.forward (hidle : s.mshr.inService = false) (isForward : Bool) :
    Sound { s with mshr := { s.mshr with isForward }, marked := [], filled := false } :=
  { h with
    served := by
      refine ⟨h.served.in_order, h.served.replaced, ?_⟩
      intro hservice
      exact absurd (hidle.symm.trans hservice) (by decide)
    marked := fun _ hne => absurd rfl hne }

/-- The request is sent: what is awaited is exclusive if a target needs that. -/
theorem Sound.sent (hidle : s.mshr.inService = false)
    (isForward pendingDirtyResp : Bool) :
    Sound { s with
      mshr := { s.mshr with
        isForward
        inService := true
        pendingDirty := s.mshr.targets.needsExclusive || pendingDirtyResp
        postInvalidate := false
        postDowngrade := false }
      marked := []
      filled := false } :=
  { h with
    served := by
      refine ⟨h.served.in_order, ?_, ?_⟩
      · intro _ hpost
        cases hpost
      · intro _ _ t ht hsource hexcl
        refine ⟨?_, fun n hn => absurd hn not_mem_nil⟩
        have hflag : s.mshr.targets.needsExclusive = true := by
          apply h.targets_flagged t ht _ hexcl
          rw [hsource]
          decide
        rw [hflag, Bool.true_or]
    idle := fun _ => h.idle hidle
    marked := fun _ hne => absurd rfl hne }

theorem Sound.markInService {isForward pendingDirtyResp : Bool}
    (hstep : s.step (.markInService isForward pendingDirtyResp) = .ok t) : t.Sound := by
  obtain ⟨m, hm, rfl⟩ := Except.bind_pure_eq_ok hstep
  rw [MSHR.markInService] at hm
  split at hm
  · cases hm
  · rename_i hservice
    have hidle : s.mshr.inService = false := Bool.not_eq_true _ ▸ hservice
    obtain ⟨noResponse, -, hm⟩ := Except.bind_eq_ok hm
    split at hm
    · -- no response is expected, so the only target goes
      rw [MSHR.popTarget] at hm
      split at hm
      · cases hm
      · rename_i hlist
        cases hm
        exact (h.forward hidle isForward).pop hlist
    · cases hm
      exact h.sent hidle isForward pendingDirtyResp

/-- The deferred targets join the others. -/
theorem Sound.splice :
    Sound { s with
      mshr := { s.mshr with
        targets := { s.mshr.targets with
          list := s.mshr.targets.list ++ s.mshr.deferredTargets.list
          needsExclusive := true }
        deferredTargets := {} }
      filled := true } where
  served := by
    refine ⟨?_, fun _ _ t ht => absurd ht not_mem_nil, ?_⟩
    · have hnone : ({} : TargetList).cpuOrders = [] := rfl
      rw [hnone, append_nil, TargetList.cpuOrders, filter_append, map_append]
      exact h.served.in_order
    · intro _ hfilled
      cases hfilled
  targets_lt := by
    intro t ht
    rcases mem_append.mp ht with ht | ht
    · exact h.targets_lt t ht
    · exact h.deferred_lt t ht
  deferred_lt := fun t ht => absurd ht not_mem_nil
  idle := fun _ => rfl
  targets_flagged := fun _ _ _ _ => rfl
  deferred_flagged := fun t ht => absurd ht not_mem_nil
  deferred_cpu := fun t ht => absurd ht not_mem_nil
  upgrade_flagged := fun t ht => absurd ht not_mem_nil
  marked := h.marked

/-- A fill without effect on the lists. -/
theorem Sound.fill : Sound { s with filled := true } :=
  { h with
    served := by
      refine ⟨h.served.in_order, h.served.replaced, ?_⟩
      intro _ hfilled
      cases hfilled }

theorem Sound.handleFill {sharedAsserted : Bool}
    (hstep : s.step (.handleFill sharedAsserted) = .ok t) : t.Sound := by
  obtain ⟨m, hm, rfl⟩ := Except.bind_pure_eq_ok hstep
  rw [MSHR.handleFill] at hm
  split at hm
  · cases hm
    exact h.fill
  split at hm
  · cases hm
  split at hm
  · cases hm
    exact h.fill
  split at hm
  · cases hm
  · cases hm
    exact h.splice

/-- The deferred targets take the place of the others, and the register leaves service. -/
theorem Sound.promote (hnil : s.mshr.targets.list = []) :
    Sound { s with
      mshr := { s.mshr with
        targets := s.mshr.deferredTargets
        deferredTargets := s.mshr.targets.resetFlags
        inService := false } } where
  served := by
    refine ⟨?_, ?_, ?_⟩
    · have hnone : s.mshr.targets.resetFlags.cpuOrders = [] := by
        rw [TargetList.resetFlags, hnil]
        rfl
      dsimp only
      rw [hnone, append_nil]
      exact h.served.in_order.sublist (sublist_append_right _ _)
    · intro hservice
      cases hservice
    · intro hservice
      cases hservice
  targets_lt := h.deferred_lt
  deferred_lt := h.targets_lt
  idle := fun _ => hnil
  targets_flagged := h.deferred_flagged
  deferred_flagged := fun t ht => absurd (hnil ▸ ht) not_mem_nil
  deferred_cpu := fun t ht => absurd (hnil ▸ ht) not_mem_nil
  upgrade_flagged := fun t ht => absurd (hnil ▸ ht) not_mem_nil
  marked := by
    intro hservice
    cases hservice

theorem Sound.promoteDeferredTargets (hstep : s.step .promoteDeferredTargets = .ok t) : t.Sound := by
  obtain ⟨m, hm, rfl⟩ := Except.bind_pure_eq_ok hstep
  rw [MSHR.promoteDeferredTargets] at hm
  split at hm
  · cases hm
  · rename_i hempty
    split at hm
    · cases hm
      exact h
    · cases hm
      exact h.promote (not_not.mp hempty)

theorem Sound.setDownstreamPending (pending : Bool) :
    Sound { s with mshr := { s.mshr with downstreamPending := pending } } :=
  { h with
    served := { h.served with } }

/-! ## Runs -/

theorem Sound.step {op : MshrOp} (hstep : s.step op = .ok t) : t.Sound := by
  cases op with
  | allocateTarget cmd => exact h.allocateTarget hstep
  | handleSnoop pkt => exact h.handleSnoop hstep
  | markInService isForward pendingDirtyResp => exact h.markInService hstep
  | handleFill sharedAsserted => exact h.handleFill hstep
  | popTarget => exact h.popTarget hstep
  | promoteDeferredTargets => exact h.promoteDeferredTargets hstep
  | setDownstreamPending pending =>
    cases hstep
    exact h.setDownstreamPending pending

end

/-- A free register has no targets; its marks may be left from before. -/
theorem sound_allocate {m m' : MSHR} {cmd : MemCmd} {isUncacheable : Bool} {order : ℕ}
    (htargets : m.targets.list = []) (hdeferred : m.deferredTargets.list = [])
    (halloc : m.allocate cmd isUncacheable order = .ok m') :
    Sound { mshr := m', counter := order + 1 } := by
  rw [MSHR.allocate] at halloc
  split at halloc
  · cases halloc
    have hnone : ∀ t ∈ m.targets.list, t.order < order :=
      fun t ht => absurd (htargets ▸ ht) not_mem_nil
    have hempty : m.targets.ExclusiveFlagged :=
      fun t ht => absurd (htargets ▸ ht) not_mem_nil
    exact
      { served := by
          refine ⟨?_, ?_, ?_⟩
          · by_cases hpf : cmd = .hardPFReq
            · simp [TargetList.cpuOrders, TargetList.add, htargets, hdeferred, hpf]
            · simp [TargetList.cpuOrders, TargetList.add, htargets, hdeferred, hpf]
          · intro hservice
            cases hservice
          · intro hservice
            cases hservice
        targets_lt := lt_counter_of_add hnone rfl
        deferred_lt := fun t ht => absurd (hdeferred ▸ ht) not_mem_nil
        idle := fun _ => hdeferred
        targets_flagged := hempty.add _
        deferred_flagged := fun t ht => absurd (hdeferred ▸ ht) not_mem_nil
        deferred_cpu := fun t ht => absurd (hdeferred ▸ ht) not_mem_nil
        upgrade_flagged := fun t ht => absurd (hdeferred ▸ ht) not_mem_nil
        marked := fun _ hne => absurd rfl hne }
  · cases halloc

/-- The block that a snoop took stays taken until the deferred targets are promoted. -/
theorem postInvalidate_step {op : MshrOp} (hservice : s.mshr.inService = true)
    (hpost : s.mshr.postInvalidate = true) (hop : op ≠ .promoteDeferredTargets)
    (hstep : s.step op = .ok t) : t.mshr.inService = true ∧ t.mshr.postInvalidate = true := by
  cases op with
  | allocateTarget cmd =>
    obtain ⟨m, hm, rfl⟩ := Except.bind_pure_eq_ok hstep
    rw [MSHR.allocateTarget] at hm
    split at hm
    · cases hm
    split at hm
    all_goals
      cases hm
      exact ⟨hservice, hpost⟩
  | handleSnoop pkt =>
    cases hstep
    cases hprec : s.mshr.precedes pkt <;> cases hexcl : pkt.cmd.needsExclusive <;>
      simp [MSHR.handleSnoop, hprec, hexcl, hpost, hservice]
  | markInService isForward pendingDirtyResp =>
    -- a request is sent once in a period
    obtain ⟨m, hm, -⟩ := Except.bind_eq_ok hstep
    rw [MSHR.markInService, if_pos hservice] at hm
    cases hm
  | handleFill sharedAsserted =>
    obtain ⟨m, hm, rfl⟩ := Except.bind_pure_eq_ok hstep
    have hkept : m = s.mshr := by
      simp only [MSHR.handleFill, hservice, hpost, Bool.not_true, Bool.false_eq_true, if_false,
        Bool.true_or, if_true, ite_self] at hm
      exact (Except.ok.inj hm).symm
    rw [hkept]
    exact ⟨hservice, hpost⟩
  | popTarget =>
    obtain ⟨m, hm, rfl⟩ := Except.bind_pure_eq_ok hstep
    rw [MSHR.popTarget] at hm
    split at hm
    · cases hm
    · cases hm
      exact ⟨hservice, hpost⟩
  | promoteDeferredTargets => exact absurd rfl hop
  | setDownstreamPending pending =>
    cases hstep
    exact ⟨hservice, hpost⟩

/-- A request that comes after the block was taken waits, without an upgrade. -/
theorem allocateTarget_postInvalidate {cmd : MemCmd} (hservice : s.mshr.inService = true)
    (hpost : s.mshr.postInvalidate = true) (hstep : s.step (.allocateTarget cmd) = .ok t) :
    t.mshr.targets = s.mshr.targets ∧ t.mshr.deferredTargets.list =
      s.mshr.deferredTargets.list ++ [⟨cmd.replaceUpgrade, s.counter, .fromCPU⟩] := by
  obtain ⟨m, hm, rfl⟩ := Except.bind_pure_eq_ok hstep
  have hdefers : s.mshr.defers cmd = true := by
    rw [MSHR.defers, hservice, hpost]
    simp
  rw [MSHR.allocateTarget] at hm
  split at hm
  · cases hm
  · cases hm
    exact ⟨rfl, rfl⟩

/-- **Targets are served in order and with enough permission.**  From the allocation of a free
register on, `Served` holds after every sequence of calls; a block that a snoop took is not given
to requests that come later in the same period, which lasts until the promotion. -/
theorem mshr_targets_in_order {m m' : MSHR} {cmd : MemCmd} {isUncacheable : Bool} {order : ℕ}
    {ops : List MshrOp} (htargets : m.targets.list = []) (hdeferred : m.deferredTargets.list = [])
    (halloc : m.allocate cmd isUncacheable order = .ok m')
    (h : Runs (Within step Anytime) { mshr := m', counter := order + 1 } ops s) :
    s.Served ∧ (s.mshr.inService = true → s.mshr.postInvalidate = true →
      (∀ cmd t, s.step (.allocateTarget cmd) = .ok t → t.mshr.targets = s.mshr.targets ∧
        t.mshr.deferredTargets.list =
          s.mshr.deferredTargets.list ++ [⟨cmd.replaceUpgrade, s.counter, .fromCPU⟩]) ∧
      ∀ op t, op ≠ .promoteDeferredTargets → s.step op = .ok t →
        t.mshr.inService = true ∧ t.mshr.postInvalidate = true) := by
  have hs : s.Sound := by
    apply h.invariant _ (sound_allocate htargets hdeferred halloc)
    rintro s op t hs ⟨-, hstep⟩
    exact hs.step hstep
  refine ⟨hs.served, ?_⟩
  intro hservice hpost
  constructor
  · intro cmd t hstep
    exact allocateTarget_postInvalidate hservice hpost hstep
  · intro op t hop hstep
    exact postInvalidate_step hservice hpost hop hstep

/-- A write miss, a read that joins it, an upgrade that waits behind a snooped read, a snoop that
takes the block and an upgrade that comes after that. -/
theorem mshr_targets_in_order_two_snoops :
    ∃ m' s, MSHR.allocate {} .writeReq false 0 = .ok m' ∧
      Runs (Within step Anytime) { mshr := m', counter := 1 }
        [.markInService false false, .allocateTarget .readReq, .handleSnoop ⟨.readReq, false, false⟩,
          .allocateTarget .upgradeReq, .handleSnoop ⟨.readExReq, false, false⟩,
          .allocateTarget .upgradeReq] s ∧
      s.mshr.targets.cpuOrders = [0, 1] ∧
      s.mshr.deferredTargets.list.map MshrTarget.cmd = [.readExReq, .readExReq] ∧
      s.marked = [4, 2] ∧ s.Served := by
  obtain ⟨m', halloc⟩ : ∃ m', MSHR.allocate {} .writeReq false 0 = .ok m' := ⟨_, rfl⟩
  obtain ⟨s, hrun, horders, hcmds, hmarked⟩ : ∃ s,
      Runs (Within step Anytime) { mshr := m', counter := 1 }
        [.markInService false false, .allocateTarget .readReq, .handleSnoop ⟨.readReq, false, false⟩,
          .allocateTarget .upgradeReq, .handleSnoop ⟨.readExReq, false, false⟩,
          .allocateTarget .upgradeReq] s ∧
      (s.mshr.targets.cpuOrders = [0, 1] ∧
      s.mshr.deferredTargets.list.map MshrTarget.cmd = [.readExReq, .readExReq] ∧
      s.marked = [4, 2]) := by
    obtain rfl := Except.ok.inj halloc
    exact exists_runs_of_execWithin (by decide +kernel)
  exact ⟨m', s, halloc, hrun, horders, hcmds, hmarked,
    (mshr_targets_in_order rfl rfl halloc hrun).1⟩

end MshrSystem
