/-
# Physical registers in the rename stage

`DefaultRename` (`src/cpu/o3/rename_impl.hh`): each thread has a rename map and a
history buffer, newest entry first, and all threads share one free list.
`renameDestRegs` takes registers from the free list, `doSquash` undoes the newest
entries and `removeFromHistory` retires the oldest.

For the statement about squashes each thread also keeps the map it started with
and, newest first, the instructions that were renamed and not squashed since,
each with the map right after it was renamed.  An instruction is squashed by
`doSquash(s, tid)` if its number is greater than `s` and it is not committed.

* `Rename.places`         — where a physical register is.
* `RenameThread.Logged`   — undoing the newest entries leads to the recorded maps.
* `Rename.step_spec`      — what a step keeps.
-/
import Mathlib
import Gem5.TransitionSystem
import Gem5.RenameMap

open List

open Function

structure RenameThread where
  renameMap : UnifiedRenameMap
  historyBuffer : List RenameHistory := []
  initial : UnifiedRenameMap := renameMap
  log : List (ℕ × UnifiedRenameMap) := []
  newest : Option ℕ := none
  committed : Option ℕ := none

structure Rename (n : ℕ) where
  threads : Fin n → RenameThread
  freeList : UnifiedFreeList

/-! ## The loops -/

/-- The loop of `renameDestRegs` over the destinations. -/
def renameLoop (isa : RegIsa) (regFile : PhysRegFile) (seqNum : ℕ) :
    List (DestReg isa) → UnifiedRenameMap → List RenameHistory → UnifiedFreeList →
      Except Abort (UnifiedRenameMap × List RenameHistory × UnifiedFreeList)
  | [], m, h, f => .ok (m, h, f)
  | d :: dests, m, h, f => do
    let r ← renameDest isa regFile m f seqNum d
    renameLoop isa regFile seqNum dests r.2.1 (r.1 :: h) r.2.2

/-- The loop of `doSquash`, from the front of the history. -/
def squashLoop (isa : RegIsa) (regFile : PhysRegFile) (squashed : ℕ) :
    List RenameHistory → UnifiedRenameMap → UnifiedFreeList →
      Except Abort (List RenameHistory × UnifiedRenameMap × UnifiedFreeList)
  | [], m, f => .ok ([], m, f)
  | e :: h, m, f =>
    if squashed < e.instSeqNum then do
      let r ← e.undo isa regFile m f
      squashLoop isa regFile squashed h r.1 r.2
    else .ok (e :: h, m, f)

/-- The loop of `removeFromHistory`, from the back: the history is given in reverse. -/
def commitLoop (regFile : PhysRegFile) (seqNum : ℕ) :
    List RenameHistory → UnifiedFreeList → Except Abort (List RenameHistory × UnifiedFreeList)
  | [], f => .ok ([], f)
  | e :: h, f =>
    if e.instSeqNum ≤ seqNum then do
      let f ← e.retire regFile f
      commitLoop regFile seqNum h f
    else .ok (e :: h, f)

namespace Rename

variable {n : ℕ}

def update (s : Rename n) (tid : Fin n) (th : RenameThread) (f : UnifiedFreeList) : Rename n where
  threads := Function.update s.threads tid th
  freeList := f

def renameDestRegs (isa : RegIsa) (regFile : PhysRegFile) (s : Rename n) (tid : Fin n)
    (seqNum : ℕ) (dests : List (DestReg isa)) : Except Abort (Rename n) := do
  let th := s.threads tid
  let r ← renameLoop isa regFile seqNum dests th.renameMap th.historyBuffer s.freeList
  pure (s.update tid { th with
    renameMap := r.1
    historyBuffer := r.2.1
    log := (seqNum, r.1) :: th.log
    newest := some seqNum } r.2.2)

/-- The instructions that `doSquash` leaves. -/
def remaining (th : RenameThread) (squashed : ℕ) (x : ℕ × UnifiedRenameMap) : Bool :=
  x.1 ≤ squashed || th.committed.any (x.1 ≤ ·)

def doSquash (isa : RegIsa) (regFile : PhysRegFile) (s : Rename n) (squashed : ℕ) (tid : Fin n) :
    Except Abort (Rename n) := do
  let th := s.threads tid
  let r ← squashLoop isa regFile squashed th.historyBuffer th.renameMap s.freeList
  pure (s.update tid { th with
    renameMap := r.2.1
    historyBuffer := r.1
    log := th.log.filter (remaining th squashed) } r.2.2)

def removeFromHistory (regFile : PhysRegFile) (s : Rename n) (seqNum : ℕ) (tid : Fin n) :
    Except Abort (Rename n) := do
  let th := s.threads tid
  let r ← commitLoop regFile seqNum th.historyBuffer.reverse s.freeList
  pure (s.update tid { th with
    historyBuffer := r.1.reverse
    committed := some seqNum } r.2)

inductive Op (isa : RegIsa) (n : ℕ)
  | renameDestRegs (tid : Fin n) (seqNum : ℕ) (dests : List (DestReg isa))
  | doSquash (squashed : ℕ) (tid : Fin n)
  | removeFromHistory (seqNum : ℕ) (tid : Fin n)

def step (isa : RegIsa) (regFile : PhysRegFile) (s : Rename n) :
    Op isa n → Except Abort (Rename n)
  | .renameDestRegs tid seqNum dests => s.renameDestRegs isa regFile tid seqNum dests
  | .doSquash squashed tid => s.doSquash isa regFile squashed tid
  | .removeFromHistory seqNum tid => s.removeFromHistory regFile seqNum tid

/-- The instructions of a thread are renamed in order, and committed in order and only if they
have been renamed and not squashed. -/
def InOrder {isa : RegIsa} (s : Rename n) : Op isa n → Prop
  | .renameDestRegs tid seqNum _ => ∀ k ∈ (s.threads tid).newest, k < seqNum
  | .doSquash _ _ => True
  | .removeFromHistory seqNum tid =>
    seqNum ∈ (s.threads tid).log.map Prod.fst ∧ ∀ c ∈ (s.threads tid).committed, c ≤ seqNum

instance {isa : RegIsa} (s : Rename n) : (op : Op isa n) → Decidable (s.InOrder op)
  | .renameDestRegs tid seqNum _ =>
    inferInstanceAs (Decidable (∀ k ∈ (s.threads tid).newest, k < seqNum))
  | .doSquash _ _ => inferInstanceAs (Decidable True)
  | .removeFromHistory seqNum tid =>
    inferInstanceAs (Decidable (seqNum ∈ (s.threads tid).log.map Prod.fst ∧
      ∀ c ∈ (s.threads tid).committed, c ≤ seqNum))

end Rename

/-- The mappings and the history entries of a thread that a physical register is in. -/
def RenameThread.places (th : RenameThread) (p : ℕ) : ℕ :=
  th.renameMap.count p + th.historyBuffer.countP (·.holds p)

/-- The places of a physical register: on the free list, current mapping of an architectural
register, or previous register of a history entry that is a change. -/
def Rename.places {n : ℕ} (s : Rename n) (p : ℕ) : ℕ :=
  s.freeList.count p + ∑ tid, (s.threads tid).places p

/-- The register is the mapping of an integer or floating-point zero register. -/
def Rename.BacksZero {n : ℕ} (s : Rename n) (p : ℕ) : Prop :=
  ∃ tid, ∃ c ∈ [RenamedClass.int, .float],
    ((s.threads tid).renameMap.get c).map[((s.threads tid).renameMap.get c).zeroReg]? = some p

/-! ## What the loops do -/

/-- The map before the entries were made, the newest first. -/
def restoreAll (isa : RegIsa) (m : UnifiedRenameMap) (h : List RenameHistory) : UnifiedRenameMap :=
  h.foldl (fun m e => e.restore isa m) m

/-- Each entry is in place in the map to which the newer ones lead back. -/
def Chain (isa : RegIsa) : UnifiedRenameMap → List RenameHistory → Prop
  | _, [] => True
  | m, e :: h => e.InPlace isa m ∧ Chain isa (e.restore isa m) h

section loops

variable {isa : RegIsa} {regFile : PhysRegFile} {m m' : UnifiedRenameMap}
  {f f' : UnifiedFreeList} {h h' : List RenameHistory} {seqNum : ℕ}

theorem restoreAll_append (m : UnifiedRenameMap) (h h' : List RenameHistory) :
    restoreAll isa m (h ++ h') = restoreAll isa (restoreAll isa m h) h' :=
  foldl_append

theorem chain_append : Chain isa m (h ++ h') ↔ Chain isa m h ∧ Chain isa (restoreAll isa m h) h' := by
  induction h generalizing m with
  | nil => exact (true_and _).symm.to_iff
  | cons e h ih =>
    show (_ ∧ Chain isa (e.restore isa m) (h ++ h')) ↔ (_ ∧ _) ∧ _
    rw [ih, and_assoc]
    rfl

theorem renameLoop_spec {dests : List (DestReg isa)}
    (hr : renameLoop isa regFile seqNum dests m h f = .ok (m', h', f')) :
    ∃ es, h' = es ++ h ∧ (∀ e ∈ es, e.instSeqNum = seqNum) ∧ restoreAll isa m' es = m ∧
      Chain isa m' es ∧ m.SameZero m' ∧
      ∀ p, f.count p + m.count p ≤ 1 →
        f'.count p + m'.count p + es.countP (·.holds p) = f.count p + m.count p := by
  induction dests generalizing m h f with
  | nil =>
    cases hr
    exact ⟨[], rfl, nofun, rfl, trivial, .refl _, fun _ _ => rfl⟩
  | cons d dests ih =>
    obtain ⟨⟨e, m₁, f₁⟩, hd, hr⟩ := Except.bind_eq_ok hr
    obtain ⟨hseq, hin, hrestore, hzero, hcount⟩ := renameDest_spec hd
    obtain ⟨es, rfl, hes, hrestore', hchain, hzero', hcount'⟩ := ih hr
    refine ⟨es ++ [e], append_cons .., ?_, ?_, ?_, hzero.trans hzero', ?_⟩
    · exact forall_mem_append.mpr ⟨hes, forall_mem_singleton.mpr hseq⟩
    · rw [restoreAll_append, hrestore']
      exact hrestore
    · rw [chain_append, hrestore']
      exact ⟨hchain, hin, trivial⟩
    · intro p hp
      have h₁ := hcount p hp
      have h₂ := hcount' p (by dsimp only; omega)
      dsimp only at h₂
      rw [countP_append, countP_singleton]
      omega

theorem squashLoop_spec {squashed : ℕ}
    (hr : squashLoop isa regFile squashed h m f = .ok (h', m', f')) (hchain : Chain isa m h) :
    ∃ es, h = es ++ h' ∧ (∀ e ∈ es, squashed < e.instSeqNum) ∧
      (∀ e ∈ h'.head?, e.instSeqNum ≤ squashed) ∧ m' = restoreAll isa m es ∧ m.SameZero m' ∧
      ∀ p, f'.count p + m'.count p = f.count p + m.count p + es.countP (·.holds p) := by
  induction h generalizing m f with
  | nil =>
    cases hr
    exact ⟨[], rfl, nofun, nofun, rfl, .refl _, fun _ => rfl⟩
  | cons e h ih =>
    unfold squashLoop at hr
    split at hr
    · rename_i hlt
      obtain ⟨⟨m₁, f₁⟩, hundo, hr⟩ := Except.bind_eq_ok hr
      obtain ⟨hin, hchain⟩ := hchain
      obtain ⟨rfl, hzero, hcount⟩ := e.undo_spec hundo hin
      obtain ⟨es, rfl, hes, hhead, hm', hzero', hcount'⟩ := ih hr hchain
      refine ⟨e :: es, rfl, ?_, hhead, hm', hzero.trans hzero', fun p => ?_⟩
      · exact forall_mem_cons.mpr ⟨hlt, hes⟩
      · have h₁ := hcount p
        have h₂ := hcount' p
        dsimp only at h₂
        rw [countP_cons]
        omega
    · rename_i hle
      cases hr
      refine ⟨[], rfl, nofun, ?_, rfl, .refl _, fun _ => rfl⟩
      rintro _ ⟨⟩
      exact not_lt.mp hle

theorem commitLoop_spec (hr : commitLoop regFile seqNum h f = .ok (h', f')) :
    ∃ es, h = es ++ h' ∧ (∀ e ∈ es, e.instSeqNum ≤ seqNum) ∧
      (∀ e ∈ h'.head?, seqNum < e.instSeqNum) ∧
      ∀ p, f'.count p = f.count p + es.countP (·.holds p) := by
  induction h generalizing f with
  | nil =>
    cases hr
    exact ⟨[], rfl, nofun, nofun, fun _ => rfl⟩
  | cons e h ih =>
    unfold commitLoop at hr
    split at hr
    · rename_i hle
      obtain ⟨f₁, hretire, hr⟩ := Except.bind_eq_ok hr
      obtain ⟨es, rfl, hes, hhead, hcount⟩ := ih hr
      refine ⟨e :: es, rfl, forall_mem_cons.mpr ⟨hle, hes⟩, hhead, fun p => ?_⟩
      rw [hcount p, RenameHistory.retire_spec hretire p, countP_cons]
      omega
    · rename_i hgt
      cases hr
      refine ⟨[], rfl, nofun, ?_, fun _ => rfl⟩
      rintro _ ⟨⟩
      exact not_le.mp hgt

end loops

/-! ## Threads -/

namespace RenameThread

/-- The records of a thread agree with its history: undoing the entries that are newer than a
recorded instruction leads to the map right after it.  Once an instruction is committed, the maps
before it can no longer be reached. -/
structure Logged (isa : RegIsa) (th : RenameThread) : Prop where
  sorted : th.historyBuffer.Pairwise fun e e' => e'.instSeqNum ≤ e.instSeqNum
  above : ∀ e ∈ th.historyBuffer, ∀ c ∈ th.committed, c < e.instSeqNum
  listed : ∀ e ∈ th.historyBuffer, e.instSeqNum ∈ th.log.map Prod.fst
  decreasing : th.log.Pairwise fun x y => y.1 < x.1
  bounded : ∀ k ∈ th.log.map Prod.fst, ∃ top ∈ th.newest, k ≤ top
  commits : ∀ c ∈ th.committed, c ∈ th.log.map Prod.fst
  snapshot : ∀ x ∈ th.log, (∀ c ∈ th.committed, c ≤ x.1) →
    restoreAll isa th.renameMap (th.historyBuffer.filter (x.1 < ·.instSeqNum)) = x.2
  start : th.committed = none → restoreAll isa th.renameMap th.historyBuffer = th.initial

/-- The map after the last recorded instruction. -/
def lastMap (th : RenameThread) : UnifiedRenameMap := (th.log.head?.map Prod.snd).getD th.initial

variable {isa : RegIsa} {th : RenameThread}

theorem Logged.renameMap_eq (h : th.Logged isa) : th.renameMap = th.lastMap := by
  unfold lastMap
  have hlisted := h.listed
  have hcommits := h.commits
  cases hlog : th.log with
  | nil =>
    rw [hlog] at hlisted hcommits
    have hnil : th.historyBuffer = [] :=
      eq_nil_iff_forall_not_mem.mpr fun e he => not_mem_nil (hlisted e he)
    have hnone : th.committed = none :=
      Option.eq_none_iff_forall_not_mem.mpr fun c hc => not_mem_nil (hcommits c hc)
    have hstart := h.start hnone
    rw [hnil] at hstart
    exact hstart
  | cons x log =>
    -- no entry is newer than the newest instruction
    have hle : ∀ k ∈ th.log.map Prod.fst, k ≤ x.1 := by
      have hdec := h.decreasing
      rw [hlog] at hdec ⊢
      intro k hk
      obtain ⟨y, hy, rfl⟩ := mem_map.mp hk
      rcases mem_cons.mp hy with rfl | hy
      · exact le_rfl
      · exact (rel_of_pairwise_cons hdec hy).le
    have hsnap := h.snapshot x (by rw [hlog]; exact mem_cons_self ..)
      fun c hc => hle c (h.commits c hc)
    have hnone : th.historyBuffer.filter (x.1 < ·.instSeqNum) = [] := by
      rw [filter_eq_nil_iff]
      intro e he
      rw [decide_eq_true_iff]
      exact not_lt.mpr (hle _ (h.listed e he))
    rw [hnone] at hsnap
    exact hsnap

theorem Logged.rename {m : UnifiedRenameMap} {es : List RenameHistory} {seqNum : ℕ}
    (h : th.Logged isa) (hnew : ∀ k ∈ th.newest, k < seqNum)
    (hes : ∀ e ∈ es, e.instSeqNum = seqNum) (hrestore : restoreAll isa m es = th.renameMap) :
    Logged isa { th with
      renameMap := m
      historyBuffer := es ++ th.historyBuffer
      log := (seqNum, m) :: th.log
      newest := some seqNum } := by
  have hlt : ∀ k ∈ th.log.map Prod.fst, k < seqNum := by
    intro k hk
    obtain ⟨top, htop, hle⟩ := h.bounded k hk
    exact hle.trans_lt (hnew top htop)
  constructor
  · refine pairwise_append.mpr ⟨?_, h.sorted, ?_⟩
    · refine pairwise_of_forall_mem_list fun e he e' he' => ?_
      rw [hes e he, hes e' he']
    · intro e he e' he'
      rw [hes e he]
      exact (hlt _ (h.listed e' he')).le
  · intro e he c hc
    rcases mem_append.mp he with he | he
    · rw [hes e he]
      exact hlt c (h.commits c hc)
    · exact h.above e he c hc
  · intro e he
    rcases mem_append.mp he with he | he
    · rw [hes e he]
      exact mem_cons_self ..
    · exact .tail _ (h.listed e he)
  · refine pairwise_cons.mpr ⟨fun x hx => ?_, h.decreasing⟩
    exact hlt _ (mem_map_of_mem hx)
  · intro k hk
    refine ⟨seqNum, rfl, ?_⟩
    rcases mem_cons.mp hk with rfl | hk
    · exact le_rfl
    · exact (hlt k hk).le
  · exact fun c hc => .tail _ (h.commits c hc)
  · intro x hx hc
    show restoreAll isa m ((es ++ th.historyBuffer).filter (x.1 < ·.instSeqNum)) = x.2
    rw [filter_append]
    rcases mem_cons.mp hx with rfl | hx
    · -- nothing is newer than the instruction itself
      have hnone : es.filter (seqNum < ·.instSeqNum) = [] := by
        rw [filter_eq_nil_iff]
        intro e he
        rw [decide_eq_true_iff, hes e he]
        exact lt_irrefl _
      have hnone' : th.historyBuffer.filter (seqNum < ·.instSeqNum) = [] := by
        rw [filter_eq_nil_iff]
        intro e he
        rw [decide_eq_true_iff]
        exact (hlt _ (h.listed e he)).not_gt
      rw [hnone, hnone']
      rfl
    · have hall : es.filter (x.1 < ·.instSeqNum) = es := by
        rw [filter_eq_self]
        intro e he
        rw [decide_eq_true_iff, hes e he]
        exact hlt _ (mem_map_of_mem hx)
      rw [hall, restoreAll_append, hrestore]
      exact h.snapshot x hx hc
  · intro hnone
    show restoreAll isa m (es ++ th.historyBuffer) = th.initial
    rw [restoreAll_append, hrestore]
    exact h.start hnone

theorem Logged.squash {es h' : List RenameHistory} {squashed : ℕ} (h : th.Logged isa)
    (hsplit : th.historyBuffer = es ++ h') (hes : ∀ e ∈ es, squashed < e.instSeqNum)
    (hhead : ∀ e ∈ h'.head?, e.instSeqNum ≤ squashed) :
    Logged isa { th with
      renameMap := restoreAll isa th.renameMap es
      historyBuffer := h'
      log := th.log.filter (Rename.remaining th squashed) } := by
  have hsorted := h.sorted
  rw [hsplit] at hsorted
  have hsorted' := (pairwise_append.mp hsorted).2.1
  have hmem : ∀ e ∈ h', e ∈ th.historyBuffer := by
    rw [hsplit]
    exact fun e he => mem_append_right _ he
  have hle : ∀ e ∈ h', e.instSeqNum ≤ squashed := by
    cases h' with
    | nil => exact nofun
    | cons e₀ h' =>
      intro e he
      rcases mem_cons.mp he with rfl | he
      · exact hhead e rfl
      · exact (rel_of_pairwise_cons hsorted' he).trans (hhead e₀ rfl)
  have hremaining : ∀ x, Rename.remaining th squashed x = true ↔
      x.1 ≤ squashed ∨ ∃ c ∈ th.committed, x.1 ≤ c := by
    simp [Rename.remaining, Option.any_eq_true]
  constructor
  · exact hsorted'
  · exact fun e he => h.above e (hmem e he)
  · intro e he
    obtain ⟨x, hx, hxe⟩ := mem_map.mp (h.listed e (hmem e he))
    refine mem_map.mpr ⟨x, mem_filter.mpr ⟨hx, (hremaining x).mpr (.inl ?_)⟩, hxe⟩
    rw [hxe]
    exact hle e he
  · exact h.decreasing.filter _
  · intro k hk
    obtain ⟨x, hx, rfl⟩ := mem_map.mp hk
    exact h.bounded _ (mem_map_of_mem (mem_of_mem_filter hx))
  · intro c hc
    obtain ⟨x, hx, rfl⟩ := mem_map.mp (h.commits c hc)
    exact mem_map_of_mem
      (mem_filter.mpr ⟨hx, (hremaining x).mpr (.inr ⟨x.1, hc, le_rfl⟩)⟩)
  · intro x hx hc
    obtain ⟨hx, hrem⟩ := mem_filter.mp hx
    show restoreAll isa (restoreAll isa th.renameMap es) (h'.filter (x.1 < ·.instSeqNum)) = x.2
    -- the undone entries are newer than every instruction that remains
    have hall : es.filter (x.1 < ·.instSeqNum) = es := by
      rw [filter_eq_self]
      intro e he
      rw [decide_eq_true_iff]
      rcases (hremaining x).mp hrem with hle | ⟨c, hcm, hle⟩
      · exact hle.trans_lt (hes e he)
      · exact hle.trans_lt (h.above e (by rw [hsplit]; exact mem_append_left _ he) c hcm)
    have hsnap := h.snapshot x hx hc
    rwa [hsplit, filter_append, hall, restoreAll_append] at hsnap
  · intro hnone
    have hstart := h.start hnone
    rwa [hsplit, restoreAll_append] at hstart

theorem Logged.commit {es h' : List RenameHistory} {seqNum : ℕ} (h : th.Logged isa)
    (hmem : seqNum ∈ th.log.map Prod.fst) (hc : ∀ c ∈ th.committed, c ≤ seqNum)
    (hsplit : th.historyBuffer = h' ++ es) (hes : ∀ e ∈ es, e.instSeqNum ≤ seqNum)
    (hlast : ∀ e ∈ h', seqNum < e.instSeqNum) :
    Logged isa { th with historyBuffer := h', committed := some seqNum } := by
  have hmem' : ∀ e ∈ h', e ∈ th.historyBuffer := by
    rw [hsplit]
    exact fun e he => mem_append_left _ he
  have hsorted := h.sorted
  rw [hsplit] at hsorted
  constructor
  · exact (pairwise_append.mp hsorted).1
  · rintro e he _ ⟨⟩
    exact hlast e he
  · exact fun e he => h.listed e (hmem' e he)
  · exact h.decreasing
  · exact h.bounded
  · rintro _ ⟨⟩
    exact hmem
  · intro x hx hle
    have hle : seqNum ≤ x.1 := hle seqNum rfl
    have hnone : es.filter (x.1 < ·.instSeqNum) = [] := by
      rw [filter_eq_nil_iff]
      intro e he
      rw [decide_eq_true_iff]
      exact ((hes e he).trans hle).not_gt
    have hsnap := h.snapshot x hx fun c hcm => (hc c hcm).trans hle
    rwa [hsplit, filter_append, hnone, append_nil] at hsnap
  · exact nofun

end RenameThread

/-! ## Whole runs -/

namespace Rename

variable {isa : RegIsa} {regFile : PhysRegFile} {n : ℕ} {s t : Rename n} {tid : Fin n}

def Sound (isa : RegIsa) (s : Rename n) : Prop :=
  ∀ tid, Chain isa (s.threads tid).renameMap (s.threads tid).historyBuffer ∧
    (s.threads tid).Logged isa

/-- What a step keeps: the invariant, the mappings of the zero registers, and the one place of a
register that has only one. -/
structure Conserves (isa : RegIsa) (s t : Rename n) : Prop where
  sound : t.Sound isa
  zero : ∀ tid, (s.threads tid).renameMap.SameZero (t.threads tid).renameMap
  places : ∀ p, s.places p = 1 → t.places p = 1

theorem places_update (s : Rename n) (tid : Fin n) (th : RenameThread) (f : UnifiedFreeList)
    (p : ℕ) :
    (s.update tid th f).places p + (s.freeList.count p + (s.threads tid).places p) =
      s.places p + (f.count p + th.places p) := by
  have hsum : ∑ i, ((s.update tid th f).threads i).places p + (s.threads tid).places p =
      ∑ i, (s.threads i).places p + th.places p := by
    rw [← Finset.add_sum_erase _ _ (Finset.mem_univ tid),
      ← Finset.add_sum_erase _ (fun i => (s.threads i).places p) (Finset.mem_univ tid)]
    have hself : (s.update tid th f).threads tid = th := update_self ..
    have hrest : ∑ i ∈ Finset.univ.erase tid, ((s.update tid th f).threads i).places p =
        ∑ i ∈ Finset.univ.erase tid, (s.threads i).places p := by
      refine Finset.sum_congr rfl fun i hi => ?_
      rw [show (s.update tid th f).threads i = s.threads i from
        update_of_ne (Finset.ne_of_mem_erase hi) ..]
    rw [hself, hrest]
    ac_rfl
  unfold places
  show f.count p + _ + _ = _
  omega

/-- The free list and one thread have no more places than there are. -/
theorem places_thread_le (s : Rename n) (tid : Fin n) (p : ℕ) :
    s.freeList.count p + (s.threads tid).places p ≤ s.places p :=
  Nat.add_le_add_left
    (Finset.single_le_sum (f := fun i => (s.threads i).places p) (fun _ _ => Nat.zero_le _)
      (Finset.mem_univ tid)) _

theorem conserves_update {th : RenameThread} {f : UnifiedFreeList} (h : s.Sound isa)
    (hchain : Chain isa th.renameMap th.historyBuffer) (hlogged : th.Logged isa)
    (hzero : (s.threads tid).renameMap.SameZero th.renameMap)
    (hplaces : ∀ p, s.freeList.count p + (s.threads tid).places p ≤ 1 →
      f.count p + th.places p = s.freeList.count p + (s.threads tid).places p) :
    Conserves isa s (s.update tid th f) := by
  have hself : (s.update tid th f).threads tid = th := update_self ..
  have hother : ∀ i ≠ tid, (s.update tid th f).threads i = s.threads i :=
    fun i hi => update_of_ne hi ..
  refine ⟨fun i => ?_, fun i => ?_, fun p hp => ?_⟩
  · by_cases hi : i = tid
    · rw [hi, hself]
      exact ⟨hchain, hlogged⟩
    · rw [hother i hi]
      exact h i
  · by_cases hi : i = tid
    · rw [hi, hself]
      exact hzero
    · rw [hother i hi]
      exact .refl _
  · have hle := s.places_thread_le tid p
    have heq := hplaces p (hle.trans hp.le)
    have hupdate := s.places_update tid th f p
    omega

theorem Sound.renameDestRegs {seqNum : ℕ} {dests : List (DestReg isa)} (h : s.Sound isa)
    (hok : s.InOrder (.renameDestRegs tid seqNum dests))
    (ht : s.renameDestRegs isa regFile tid seqNum dests = .ok t) : Conserves isa s t := by
  obtain ⟨⟨m, hist, f⟩, hr, ht⟩ := Except.bind_eq_ok ht
  cases ht
  obtain ⟨es, rfl, hes, hrestore, hchain, hzero, hcount⟩ := renameLoop_spec hr
  obtain ⟨hchain₀, hlogged⟩ := h tid
  refine conserves_update h ?_ (hlogged.rename hok hes hrestore) hzero fun p hp => ?_
  · refine chain_append.mpr ⟨hchain, ?_⟩
    rw [hrestore]
    exact hchain₀
  · unfold RenameThread.places at hp ⊢
    have hp' := hcount p (by omega)
    show f.count p + (m.count p + countP _ (es ++ _)) = _
    rw [countP_append]
    omega

theorem Sound.doSquash {squashed : ℕ} (h : s.Sound isa)
    (ht : s.doSquash isa regFile squashed tid = .ok t) :
    Conserves isa s t ∧ (t.threads tid).log =
      (s.threads tid).log.filter (remaining (s.threads tid) squashed) ∧
      (t.threads tid).initial = (s.threads tid).initial := by
  obtain ⟨⟨hist, m, f⟩, hr, ht⟩ := Except.bind_eq_ok ht
  cases ht
  obtain ⟨hchain, hlogged⟩ := h tid
  obtain ⟨es, hsplit, hes, hhead, rfl, hzero, hcount⟩ := squashLoop_spec hr hchain
  refine ⟨conserves_update h ?_ (hlogged.squash hsplit hes hhead) hzero fun p _ => ?_, ?_, ?_⟩
  · rw [hsplit] at hchain
    exact (chain_append.mp hchain).2
  · have hp := hcount p
    unfold RenameThread.places
    rw [hsplit, countP_append]
    show f.count p + ((restoreAll isa _ es).count p + countP _ hist) = _
    omega
  · rw [show (s.update tid _ f).threads tid = _ from update_self ..]
  · rw [show (s.update tid _ f).threads tid = _ from update_self ..]

theorem Sound.removeFromHistory {seqNum : ℕ} (h : s.Sound isa)
    (hok : s.InOrder (.removeFromHistory seqNum tid : Op isa n))
    (ht : s.removeFromHistory regFile seqNum tid = .ok t) : Conserves isa s t := by
  obtain ⟨⟨hist, f⟩, hr, ht⟩ := Except.bind_eq_ok ht
  cases ht
  obtain ⟨hchain, hlogged⟩ := h tid
  obtain ⟨es, hsplit, hes, hhead, hcount⟩ := commitLoop_spec hr
  have hsplit' : (s.threads tid).historyBuffer = hist.reverse ++ es.reverse := by
    rw [← reverse_append, ← hsplit, reverse_reverse]
  have hlast : ∀ e ∈ hist.reverse, seqNum < e.instSeqNum := by
    have hsorted := hlogged.sorted
    rw [hsplit', pairwise_append, pairwise_reverse] at hsorted
    cases hist with
    | nil => exact nofun
    | cons e₀ hist =>
      intro e he
      have hfirst := hhead e₀ rfl
      rcases mem_cons.mp (mem_reverse.mp he) with rfl | he
      · exact hfirst
      · exact hfirst.trans_le (rel_of_pairwise_cons hsorted.1 he)
  refine conserves_update h ?_ ?_ (.refl _) fun p _ => ?_
  · rw [hsplit'] at hchain
    exact (chain_append.mp hchain).1
  · exact hlogged.commit hok.1 hok.2 hsplit' (fun e he => hes e (mem_reverse.mp he)) hlast
  · have hp := hcount p
    unfold RenameThread.places
    rw [hsplit', countP_append]
    show f.count p + ((s.threads tid).renameMap.count p + countP _ hist.reverse) = _
    rw [countP_reverse, countP_reverse]
    omega

theorem Sound.step {op : Op isa n} (h : s.Sound isa) (hok : s.InOrder op)
    (ht : s.step isa regFile op = .ok t) : Conserves isa s t := by
  cases op with
  | renameDestRegs tid seqNum dests => exact h.renameDestRegs hok ht
  | doSquash squashed tid => exact (h.doSquash ht).1
  | removeFromHistory seqNum tid => exact h.removeFromHistory hok ht

/-- Nothing has been renamed yet. -/
def Initial (s : Rename n) : Prop :=
  ∀ tid, s.threads tid = { renameMap := (s.threads tid).renameMap }

theorem sound_of_initial (h : s.Initial) : s.Sound isa := by
  intro tid
  rw [h tid]
  exact ⟨trivial, .nil, nofun, nofun, .nil, nofun, nofun, nofun, fun _ => rfl⟩

theorem conserves_of_runs {s₀ : Rename n} {ops : List (Op isa n)} (h₀ : s₀.Initial)
    (h : Runs (Within (Rename.step isa regFile) InOrder) s₀ ops s) : Conserves isa s₀ s := by
  refine h.invariant (P := fun s => Conserves isa s₀ s) ?_
    ⟨sound_of_initial h₀, fun _ => .refl _, fun _ hp => hp⟩
  rintro s op t hs ⟨hok, ht⟩
  have hstep := hs.sound.step hok ht
  exact ⟨hstep.sound, fun tid => (hs.zero tid).trans (hstep.zero tid),
    fun p hp => hstep.places p (hs.places p hp)⟩

/-- The zero registers keep their mappings. -/
theorem Conserves.backsZero_iff {p : ℕ} (h : Conserves isa s t) :
    t.BacksZero p ↔ s.BacksZero p := by
  refine exists_congr fun tid => exists_congr fun c => and_congr_right fun _ => ?_
  obtain ⟨hz, hmap⟩ := h.zero tid c
  rw [hz, hmap]

end Rename

/-- **Physical registers are conserved.**  In every run from maps with distinct registers, each
integer and floating-point physical register that backs no zero register is in exactly one place:
once on the free list, or the mapping of one architectural register of one thread, or the previous
register of one history entry that is a change.  And right after `doSquash` the map of the thread is
what it was right after the last of its instructions that are not squashed and have a number of at
most `squashed` or have been committed. -/
theorem physical_registers_conserved {isa : RegIsa} {regFile : PhysRegFile} {n : ℕ}
    {s₀ s : Rename n} {ops : List (Rename.Op isa n)} (h₀ : s₀.Initial)
    (hdistinct : ∀ p, regFile.isPhysReg .int p ∨ regFile.isPhysReg .float p →
      ¬ s₀.BacksZero p → s₀.places p = 1)
    (h : Runs (Within (Rename.step isa regFile) Rename.InOrder) s₀ ops s) :
    (∀ p, regFile.isPhysReg .int p ∨ regFile.isPhysReg .float p →
      ¬ s.BacksZero p → s.places p = 1) ∧
    ∀ squashed tid t, s.step isa regFile (.doSquash squashed tid) = .ok t →
      (t.threads tid).renameMap =
        (((s.threads tid).log.find? fun x =>
          x.1 ≤ squashed || (s.threads tid).committed.any (x.1 ≤ ·)).map Prod.snd).getD
          (s.threads tid).initial := by
  have hs := Rename.conserves_of_runs h₀ h
  constructor
  · intro p hp hzero
    exact hs.places p (hdistinct p hp (mt hs.backsZero_iff.mpr hzero))
  · intro squashed tid t ht
    obtain ⟨hstep, hlog, hinit⟩ := hs.sound.doSquash ht
    rw [(hstep.sound tid).2.renameMap_eq, RenameThread.lastMap, hlog, hinit, head?_filter]
    rfl

/-- Two threads with two integer registers each, the second a zero register, and two
floating-point registers each. -/
def twoThreads : Rename 2 where
  threads := ![
    { renameMap := ⟨⟨[0, 1], 1⟩, ⟨[6, 7], 9⟩, ⟨[], 9⟩⟩ },
    { renameMap := ⟨⟨[2, 3], 1⟩, ⟨[8, 9], 9⟩, ⟨[], 9⟩⟩ }]
  freeList := ⟨[4, 5], [10, 11], []⟩

def twoThreadsIsa : RegIsa := ⟨2, 4, 4, 5⟩

/-- Its registers by unified index: two integer, two floating-point and one misc register. -/
def twoThreadsReg : Fin 5 → DestReg twoThreadsIsa
  | 0 => ⟨.renamed .int, 0, by decide⟩
  | 1 => ⟨.renamed .int, 1, by decide⟩
  | 2 => ⟨.renamed .float, 0, by decide⟩
  | 3 => ⟨.renamed .float, 1, by decide⟩
  | 4 => ⟨.misc, 0, by decide⟩

def twoThreadsRegFile : PhysRegFile := ⟨6, 12, 12⟩

theorem twoThreads_places {p : ℕ} (hp : twoThreadsRegFile.isPhysReg .int p ∨
    twoThreadsRegFile.isPhysReg .float p) : twoThreads.places p = 1 := by
  have hlt : p < 12 := by
    rcases hp with hp | hp
    · exact (of_decide_eq_true hp).trans (by decide)
    · exact of_decide_eq_true (Bool.and_eq_true_iff.mp hp).2
  interval_cases p <;> decide

/-- Two threads take turns; an instruction with two writes of one register, the zero register and a
misc register among its destinations is squashed, then one of the other thread commits. -/
theorem physical_registers_conserved_two_threads :
    ∃ s, Runs (Within (Rename.step twoThreadsIsa twoThreadsRegFile) Rename.InOrder) twoThreads
        [.renameDestRegs 0 2 [twoThreadsReg 0],
          .renameDestRegs 1 4 [twoThreadsReg 3],
          .renameDestRegs 0 5 [twoThreadsReg 2, twoThreadsReg 1, twoThreadsReg 0,
            twoThreadsReg 4],
          .doSquash 3 0, .removeFromHistory 4 1] s ∧
      s.freeList = ⟨[5], [11, 9], []⟩ ∧
      (∀ p, twoThreadsRegFile.isPhysReg .int p ∨ twoThreadsRegFile.isPhysReg .float p →
        ¬ s.BacksZero p → s.places p = 1) ∧
      ∀ squashed tid t,
        s.step twoThreadsIsa twoThreadsRegFile (.doSquash squashed tid) = .ok t →
        (t.threads tid).renameMap =
          (((s.threads tid).log.find? fun x =>
            x.1 ≤ squashed || (s.threads tid).committed.any (x.1 ≤ ·)).map Prod.snd).getD
            (s.threads tid).initial := by
  refine exists_runs_and_of_execWithin (by decide +kernel) ?_
  intro s hrun _
  refine physical_registers_conserved ?_ (fun p hp _ => twoThreads_places hp) hrun
  intro tid
  fin_cases tid <;> rfl

/-- A squash below a committed instruction does not undo it: after instruction 5 has committed,
`doSquash(3, 0)` leaves its mapping, not the one right after instruction 2. -/
theorem squash_below_commit :
    twoThreads.Initial ∧
    (∀ p, twoThreadsRegFile.isPhysReg .int p ∨ twoThreadsRegFile.isPhysReg .float p →
      twoThreads.places p = 1) ∧
    ∃ t u, Runs (Within (Rename.step twoThreadsIsa twoThreadsRegFile) Rename.InOrder) twoThreads
        [.renameDestRegs 0 2 [twoThreadsReg 0]] t ∧
      Runs (Within (Rename.step twoThreadsIsa twoThreadsRegFile) Rename.InOrder) t
        [.renameDestRegs 0 5 [twoThreadsReg 0], .removeFromHistory 5 0,
          .doSquash 3 0] u ∧
      (u.threads 0).renameMap ≠ (t.threads 0).renameMap := by
  refine ⟨?_, fun p hp => twoThreads_places hp,
    exists_runs_append_of_execWithin (by decide +kernel)⟩
  intro tid
  fin_cases tid <;> rfl
