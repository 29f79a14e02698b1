/-
# Rename maps, free lists and the history buffer

The register renaming of the out-of-order CPU: `SimpleRenameMap` and
`UnifiedRenameMap` (`src/cpu/o3/rename_map.cc`), `UnifiedFreeList`
(`free_list.hh`), the classes of registers (`src/cpu/reg_class.hh`, `regfile.hh`)
and one entry of the history buffer of the rename stage (`rename_impl.hh`).

The three renamed classes differ only in their map, their list and their range of
physical registers, so the functions for them take the class as an argument.
Condition-code registers are a class of their own, misc registers are not
renamed.

* `UnifiedRenameMap.count`, `UnifiedFreeList.count` — how often a physical
  register occurs.
* `RenameHistory.InPlace` — the entry describes the current mapping.
* `renameDest_spec`, `undo_spec`, `retire_spec` — what one destination, one entry
  undone and one entry retired move around.
-/
import Mathlib
import Gem5.TransitionSystem

/-! ## Classes of registers -/

/-- The classes with a rename map. -/
inductive RenamedClass
  | int | float | cc
  deriving DecidableEq, Repr

inductive RegClass
  | renamed (c : RenamedClass)
  | misc
  deriving DecidableEq, Repr

/-- The bases of the unified indices of architectural registers; `FP_Reg_Base` etc. -/
structure RegIsa where
  fpRegBase : ℕ
  ccRegBase : ℕ
  miscRegBase : ℕ
  maxRegIndex : ℕ

namespace RegIsa

/-- `regIdxToClass`: the class and the relative index. -/
def regIdxToClass (isa : RegIsa) (idx : ℕ) : Except Abort (RegClass × ℕ) :=
  if idx < isa.maxRegIndex then
    if idx < isa.fpRegBase then .ok (.renamed .int, idx)
    else if idx < isa.ccRegBase then .ok (.renamed .float, idx - isa.fpRegBase)
    else if idx < isa.miscRegBase then .ok (.renamed .cc, idx - isa.ccRegBase)
    else .ok (.misc, idx - isa.miscRegBase)
  else .error .assertion

/-- `flat_uni_dest_reg`. -/
def unified (isa : RegIsa) : RegClass → ℕ → ℕ
  | .renamed .int, rel => rel
  | .renamed .float, rel => rel + isa.fpRegBase
  | .renamed .cc, rel => rel + isa.ccRegBase
  | .misc, rel => rel + isa.miscRegBase

end RegIsa

/-- A destination register, flattened: its unified index is one of its class. -/
structure DestReg (isa : RegIsa) where
  regClass : RegClass
  flatRel : ℕ
  inClass : (isa.regIdxToClass (isa.unified regClass flatRel)).toOption = some (regClass, flatRel)

/-- The ranges of the physical registers. -/
structure PhysRegFile where
  baseFloatRegIndex : ℕ
  baseCCRegIndex : ℕ
  totalNumRegs : ℕ

/-- `isIntPhysReg`, `isFloatPhysReg` and `isCCPhysReg`. -/
def PhysRegFile.isPhysReg (f : PhysRegFile) : RenamedClass → ℕ → Bool
  | .int, r => r < f.baseFloatRegIndex
  | .float, r => f.baseFloatRegIndex ≤ r && r < f.baseCCRegIndex
  | .cc, r => f.baseCCRegIndex ≤ r && r < f.totalNumRegs

/-! ## Free lists -/

/-- `SimpleFreeList::getReg`. -/
def getReg : List ℕ → Except Abort (ℕ × List ℕ)
  | [] => .error .assertion
  | r :: rest => .ok (r, rest)

structure UnifiedFreeList where
  intList : List ℕ
  floatList : List ℕ
  ccList : List ℕ
  deriving DecidableEq, Repr

namespace UnifiedFreeList

def get (f : UnifiedFreeList) : RenamedClass → List ℕ
  | .int => f.intList
  | .float => f.floatList
  | .cc => f.ccList

def set (f : UnifiedFreeList) (l : List ℕ) : RenamedClass → UnifiedFreeList
  | .int => { f with intList := l }
  | .float => { f with floatList := l }
  | .cc => { f with ccList := l }

/-- `addReg(freed_reg)`: at the back of the list of its class. -/
def addReg (regFile : PhysRegFile) (f : UnifiedFreeList) (r : ℕ) : Except Abort UnifiedFreeList :=
  if regFile.isPhysReg .int r then .ok { f with intList := f.intList ++ [r] }
  else if regFile.isPhysReg .float r then .ok { f with floatList := f.floatList ++ [r] }
  else if regFile.isPhysReg .cc r then .ok { f with ccList := f.ccList ++ [r] }
  else .error .assertion

def count (f : UnifiedFreeList) (p : ℕ) : ℕ :=
  f.intList.count p + f.floatList.count p + f.ccList.count p

theorem count_set {f : UnifiedFreeList} {c : RenamedClass} {r : ℕ} {rest : List ℕ}
    (h : f.get c = r :: rest) (p : ℕ) :
    (f.set rest c).count p + (if r = p then 1 else 0) = f.count p := by
  cases c <;> simp only [get] at h <;>
    simp only [count, set, h, List.count_cons, beq_iff_eq] <;> omega

theorem count_addReg {regFile : PhysRegFile} {f f' : UnifiedFreeList} {r : ℕ}
    (h : f.addReg regFile r = .ok f') (p : ℕ) :
    f'.count p = f.count p + if r = p then 1 else 0 := by
  unfold addReg at h
  split at h
  · cases h
    simp only [count, List.count_append, List.count_singleton, beq_iff_eq]
    omega
  · split at h
    · cases h
      simp only [count, List.count_append, List.count_singleton, beq_iff_eq]
      omega
    · split at h
      · cases h
        simp only [count, List.count_append, List.count_singleton, beq_iff_eq]
        omega
      · cases h

end UnifiedFreeList

/-! ## Rename maps -/

structure SimpleRenameMap where
  map : List ℕ
  zeroReg : ℕ
  deriving DecidableEq, Repr

/-- `SimpleRenameMap::rename`: the new and the previous physical register. -/
def SimpleRenameMap.rename (m : SimpleRenameMap) (free : List ℕ) (archReg : ℕ) :
    Except Abort ((ℕ × ℕ) × SimpleRenameMap × List ℕ) :=
  match m.map[archReg]? with
  | none => .error .undefined
  | some prev =>
    if archReg ≠ m.zeroReg then do
      let r ← getReg free
      pure ((r.1, prev), { m with map := m.map.set archReg r.1 }, r.2)
    else if prev = m.zeroReg then .ok ((m.zeroReg, prev), m, free)
    else .error .assertion

structure UnifiedRenameMap where
  intMap : SimpleRenameMap
  floatMap : SimpleRenameMap
  ccMap : SimpleRenameMap
  deriving DecidableEq, Repr

namespace UnifiedRenameMap

variable (m : UnifiedRenameMap)

def get : RenamedClass → SimpleRenameMap
  | .int => m.intMap
  | .float => m.floatMap
  | .cc => m.ccMap

def set (x : SimpleRenameMap) : RenamedClass → UnifiedRenameMap
  | .int => { m with intMap := x }
  | .float => { m with floatMap := x }
  | .cc => { m with ccMap := x }

/-- `map[archReg] = physReg` in the map of a class. -/
def put (c : RenamedClass) (archReg physReg : ℕ) : UnifiedRenameMap :=
  m.set { m.get c with map := (m.get c).map.set archReg physReg } c

variable (regFile : PhysRegFile)

def lookupMisc (rel : ℕ) : ℕ := rel + regFile.totalNumRegs

/-- `renameInt`, `renameFloat` and `renameCC`. -/
def renameClass (m : UnifiedRenameMap) (free : UnifiedFreeList)
    (c : RenamedClass) (rel : ℕ) : Except Abort ((ℕ × ℕ) × UnifiedRenameMap × UnifiedFreeList) := do
  let r ← (m.get c).rename (free.get c) rel
  if regFile.isPhysReg c r.1.1 then pure (r.1, m.set r.2.1 c, free.set r.2.2 c)
  else .error .assertion

/-- The rename of one destination; `renameMisc` only gives the register its index. -/
def rename (m : UnifiedRenameMap) (free : UnifiedFreeList) (c : RegClass)
    (rel : ℕ) : Except Abort ((ℕ × ℕ) × UnifiedRenameMap × UnifiedFreeList) :=
  match c with
  | .renamed c => m.renameClass regFile free c rel
  | .misc => .ok ((lookupMisc regFile rel, lookupMisc regFile rel), m, free)

/-- `setEntry`, by the unified index. -/
def setEntry (isa : RegIsa) (regFile : PhysRegFile) (m : UnifiedRenameMap) (archReg physReg : ℕ) :
    Except Abort UnifiedRenameMap := do
  let r ← isa.regIdxToClass archReg
  match r.1 with
  | .renamed c =>
    if regFile.isPhysReg c physReg then
      if r.2 < (m.get c).map.length then pure (m.put c r.2 physReg) else .error .undefined
    else .error .assertion
  | .misc => if physReg = lookupMisc regFile r.2 then pure m else .error .assertion

def count (m : UnifiedRenameMap) (p : ℕ) : ℕ :=
  m.intMap.map.count p + m.floatMap.map.count p + m.ccMap.map.count p

variable {m : UnifiedRenameMap} {c d : RenamedClass} {a r p : ℕ}

theorem eq_put_of_setEntry {isa : RegIsa} {regFile : PhysRegFile} {m' : UnifiedRenameMap}
    (h : m.setEntry isa regFile a p = .ok m') (hclass : isa.regIdxToClass a = .ok (.renamed c, r)) :
    m' = m.put c r p := by
  unfold setEntry at h
  rw [hclass] at h
  change (if regFile.isPhysReg c p then _ else _) = _ at h
  split at h
  · split at h
    · exact (Except.ok.inj h).symm
    · cases h
  · cases h

theorem get_put : (m.put c a p).get d =
    if d = c then { m.get c with map := (m.get c).map.set a p } else m.get d := by
  cases c <;> cases d <;> rfl

/-- A mapping that is put back. -/
theorem put_self (h : (m.get c).map[a]? = some r) : m.put c a r = m := by
  obtain ⟨ha, hr⟩ := List.getElem?_eq_some_iff.mp h
  have hset : (m.get c).map.set a r = (m.get c).map := by
    rw [← hr, List.set_getElem_self]
  cases c <;> simp only [get] at hset <;> simp only [put, set, get, hset]

theorem put_put (h : (m.get c).map[a]? = some r) : (m.put c a p).put c a r = m := by
  have hset : (m.put c a p).put c a r = m.put c a r := by
    cases c <;> simp only [put, set, get, List.set_set]
  rw [hset, put_self h]

theorem count_put (h : (m.get c).map[a]? = some r) (q : ℕ) :
    (m.put c a p).count q + (if r = q then 1 else 0) = m.count q + if p = q then 1 else 0 := by
  obtain ⟨ha, hr⟩ := List.getElem?_eq_some_iff.mp h
  have hset : ((m.get c).map.set a p).count q + (if r = q then 1 else 0) =
      (m.get c).map.count q + if p = q then 1 else 0 := by
    have hpos : (if r = q then 1 else 0) ≤ (m.get c).map.count q := by
      split
      · rename_i hrq
        rw [← hrq, ← hr]
        exact List.count_pos_iff.mpr (List.getElem_mem ha)
      · exact Nat.zero_le _
    simp only [List.count_set ha, hr, beq_iff_eq]
    omega
  cases c <;> simp only [get] at hset <;> simp only [count, put, set, get] <;> omega

/-- A mapped register is counted. -/
theorem count_pos (h : (m.get c).map[a]? = some r) : 1 ≤ m.count r := by
  have hpos : 1 ≤ (m.get c).map.count r :=
    List.count_pos_iff.mpr (List.mem_of_getElem? h)
  cases c <;> simp only [get] at hpos <;> simp only [count] <;> omega

/-- The zero registers are those of another map, with the same mappings. -/
def SameZero (m m' : UnifiedRenameMap) : Prop :=
  ∀ c, (m'.get c).zeroReg = (m.get c).zeroReg ∧
    (m'.get c).map[(m.get c).zeroReg]? = (m.get c).map[(m.get c).zeroReg]?

theorem SameZero.refl (m : UnifiedRenameMap) : m.SameZero m := fun _ => ⟨rfl, rfl⟩

theorem SameZero.trans {m m' m'' : UnifiedRenameMap} (h : m.SameZero m') (h' : m'.SameZero m'') :
    m.SameZero m'' := by
  intro c
  obtain ⟨hz, hmap⟩ := h c
  obtain ⟨hz', hmap'⟩ := h' c
  rw [hz] at hz' hmap'
  exact ⟨hz', hmap'.trans hmap⟩

theorem sameZero_put (ha : a ≠ (m.get c).zeroReg) : m.SameZero (m.put c a p) := by
  intro d
  rw [get_put]
  split
  · rename_i hd
    subst hd
    exact ⟨rfl, List.getElem?_set_ne ha⟩
  · exact ⟨rfl, rfl⟩

end UnifiedRenameMap

/-! ## The history buffer -/

structure RenameHistory where
  instSeqNum : ℕ
  archReg : ℕ
  newPhysReg : ℕ
  prevPhysReg : ℕ
  deriving DecidableEq, Repr

namespace RenameHistory

variable {isa : RegIsa} {regFile : PhysRegFile} {e : RenameHistory} {m m' : UnifiedRenameMap}
  {f f' : UnifiedFreeList}

/-- The body of the loop of `doSquash`: the mapping is undone if it was a change. -/
def undo (isa : RegIsa) (regFile : PhysRegFile) (e : RenameHistory) (m : UnifiedRenameMap)
    (f : UnifiedFreeList) : Except Abort (UnifiedRenameMap × UnifiedFreeList) :=
  if e.newPhysReg ≠ e.prevPhysReg then do
    let m ← m.setEntry isa regFile e.archReg e.prevPhysReg
    let f ← f.addReg regFile e.newPhysReg
    pure (m, f)
  else .ok (m, f)

/-- The body of the loop of `removeFromHistory`: the previous register becomes free. -/
def retire (regFile : PhysRegFile) (e : RenameHistory) (f : UnifiedFreeList) :
    Except Abort UnifiedFreeList :=
  if e.newPhysReg ≠ e.prevPhysReg then f.addReg regFile e.prevPhysReg else .ok f

/-- The map before the entry was made. -/
def restore (isa : RegIsa) (e : RenameHistory) (m : UnifiedRenameMap) : UnifiedRenameMap :=
  if e.newPhysReg ≠ e.prevPhysReg then
    match isa.regIdxToClass e.archReg with
    | .ok (.renamed c, rel) => m.put c rel e.prevPhysReg
    | _ => m
  else m

/-- The new register of an entry that is a change is the current mapping. -/
def InPlace (isa : RegIsa) (e : RenameHistory) (m : UnifiedRenameMap) : Prop :=
  e.newPhysReg ≠ e.prevPhysReg → ∃ c rel, isa.regIdxToClass e.archReg = .ok (.renamed c, rel) ∧
    (m.get c).map[rel]? = some e.newPhysReg ∧ rel ≠ (m.get c).zeroReg

/-- The entry holds the register as the previous one of a change. -/
def holds (e : RenameHistory) (p : ℕ) : Bool :=
  e.prevPhysReg == p && e.newPhysReg != e.prevPhysReg

theorem retire_spec (h : e.retire regFile f = .ok f') (p : ℕ) :
    f'.count p = f.count p + if e.holds p then 1 else 0 := by
  unfold retire at h
  split at h
  · rename_i hne
    rw [UnifiedFreeList.count_addReg h]
    simp [holds, hne]
  · rename_i heq
    cases h
    simp [holds, not_not.mp heq]

theorem undo_spec (h : e.undo isa regFile m f = .ok (m', f')) (hin : e.InPlace isa m) :
    m' = e.restore isa m ∧ m.SameZero m' ∧
      ∀ p, f'.count p + m'.count p = f.count p + m.count p + if e.holds p then 1 else 0 := by
  unfold undo at h
  unfold restore
  split at h
  · rename_i hne
    obtain ⟨c, rel, hclass, hmap, hzero⟩ := hin hne
    obtain ⟨m₁, hm₁, h⟩ := Except.bind_eq_ok h
    obtain ⟨f₁, hf₁, h⟩ := Except.bind_eq_ok h
    cases h
    have hput : m' = m.put c rel e.prevPhysReg := UnifiedRenameMap.eq_put_of_setEntry hm₁ hclass
    subst hput
    refine ⟨?_, UnifiedRenameMap.sameZero_put hzero, fun p => ?_⟩
    · rw [if_pos hne, hclass]
    · have hcount := UnifiedRenameMap.count_put (p := e.prevPhysReg) hmap p
      rw [UnifiedFreeList.count_addReg hf₁]
      simp only [holds, bne_iff_ne.mpr hne, Bool.and_true, beq_iff_eq]
      omega
  · rename_i heq
    cases h
    refine ⟨(if_neg heq).symm, UnifiedRenameMap.SameZero.refl _, fun p => ?_⟩
    simp [holds, not_not.mp heq]

end RenameHistory

/-! ## One destination -/

/-- What `SimpleRenameMap::rename` can do: take a register from the free list, or leave the zero
register as it is. -/
theorem SimpleRenameMap.rename_cases {x x' : SimpleRenameMap} {free free' : List ℕ}
    {a new prev : ℕ} (h : x.rename free a = .ok ((new, prev), x', free')) :
    x.map[a]? = some prev ∧ a ≠ x.zeroReg ∧ free = new :: free' ∧
        x' = { x with map := x.map.set a new } ∨
      new = prev ∧ x' = x ∧ free' = free := by
  unfold SimpleRenameMap.rename at h
  split at h
  · cases h
  · rename_i prev' hprev
    split at h
    · rename_i ha
      cases free with
      | nil => cases h
      | cons r rest =>
        cases h
        exact .inl ⟨hprev, ha, rfl, rfl⟩
    · split at h
      · rename_i hz
        cases h
        exact .inr ⟨hz.symm, rfl, rfl⟩
      · cases h

theorem UnifiedRenameMap.rename_cases {regFile : PhysRegFile} {m m' : UnifiedRenameMap}
    {f f' : UnifiedFreeList} {c : RegClass} {rel new prev : ℕ}
    (h : m.rename regFile f c rel = .ok ((new, prev), m', f')) :
    (∃ d rest, c = .renamed d ∧ (m.get d).map[rel]? = some prev ∧ rel ≠ (m.get d).zeroReg ∧
        f.get d = new :: rest ∧ m' = m.put d rel new ∧ f' = f.set rest d) ∨
      new = prev ∧ m' = m ∧ f' = f := by
  cases c with
  | misc =>
    cases h
    exact .inr ⟨rfl, rfl, rfl⟩
  | renamed d =>
    obtain ⟨⟨⟨new', prev'⟩, x, rest⟩, hr, h⟩ := Except.bind_eq_ok h
    split at h
    · cases h
      rcases SimpleRenameMap.rename_cases hr with ⟨hprev, hz, hfree, hx⟩ | ⟨hnew, hx, hfree⟩
      · left
        refine ⟨d, rest, rfl, hprev, hz, hfree, ?_, rfl⟩
        rw [hx]
        rfl
      · right
        refine ⟨hnew, ?_, ?_⟩
        · rw [hx]
          cases d <;> rfl
        · rw [hfree]
          cases d <;> rfl
    · cases h

/-- The rename of one destination in `renameDestRegs`, with the entry for the history. -/
def renameDest (isa : RegIsa) (regFile : PhysRegFile) (m : UnifiedRenameMap) (f : UnifiedFreeList)
    (seqNum : ℕ) (d : DestReg isa) :
    Except Abort (RenameHistory × UnifiedRenameMap × UnifiedFreeList) := do
  let r ← m.rename regFile f d.regClass d.flatRel
  pure (⟨seqNum, isa.unified d.regClass d.flatRel, r.1.1, r.1.2⟩, r.2)

theorem DestReg.regIdxToClass_unified {isa : RegIsa} (d : DestReg isa) :
    isa.regIdxToClass (isa.unified d.regClass d.flatRel) = .ok (d.regClass, d.flatRel) := by
  have h := d.inClass
  cases hr : isa.regIdxToClass (isa.unified d.regClass d.flatRel) with
  | error a =>
    rw [hr] at h
    cases h
  | ok r =>
    rw [hr] at h
    exact congrArg Except.ok (Option.some.inj h)

/-- One destination: the entry describes the change, and no register is lost unless it was in two
places before. -/
theorem renameDest_spec {isa : RegIsa} {regFile : PhysRegFile} {m m' : UnifiedRenameMap}
    {f f' : UnifiedFreeList} {seqNum : ℕ} {d : DestReg isa} {e : RenameHistory}
    (h : renameDest isa regFile m f seqNum d = .ok (e, m', f')) :
    e.instSeqNum = seqNum ∧ e.InPlace isa m' ∧ e.restore isa m' = m ∧ m.SameZero m' ∧
      ∀ p, f.count p + m.count p ≤ 1 →
        f'.count p + m'.count p + (if e.holds p then 1 else 0) = f.count p + m.count p := by
  obtain ⟨⟨⟨new, prev⟩, m₁, f₁⟩, hr, h⟩ := Except.bind_eq_ok h
  cases h
  rcases UnifiedRenameMap.rename_cases hr with ⟨c, rest, hc, hprev, hz, hfree, rfl, rfl⟩ |
    ⟨rfl, rfl, rfl⟩
  · have hclass := d.regIdxToClass_unified
    rw [hc] at hclass
    have hlen : d.flatRel < (m.get c).map.length := (List.getElem?_eq_some_iff.mp hprev).1
    have hnew : ((m.put c d.flatRel new).get c).map[d.flatRel]? = some new := by
      rw [UnifiedRenameMap.get_put, if_pos rfl]
      exact List.getElem?_set_self hlen
    refine ⟨rfl, fun _ => ⟨c, d.flatRel, ?_, hnew, ?_⟩, ?_, UnifiedRenameMap.sameZero_put hz, ?_⟩
    · rw [hc]
      exact hclass
    · rw [UnifiedRenameMap.get_put, if_pos rfl]
      exact hz
    · -- the mapping put back is the old one, whether or not it was a change
      unfold RenameHistory.restore
      split
      · rw [hc, hclass]
        exact UnifiedRenameMap.put_put hprev
      · rename_i heq
        have heq : new = prev := not_not.mp heq
        subst heq
        exact UnifiedRenameMap.put_self hprev
    · intro p hp
      have hfc := UnifiedFreeList.count_set hfree p
      have hmc := UnifiedRenameMap.count_put (p := new) hprev p
      have hpos := UnifiedRenameMap.count_pos hprev
      simp only [RenameHistory.holds, Bool.and_eq_true, beq_iff_eq, bne_iff_ne]
      rcases eq_or_ne prev p with rfl | hpp
      · by_cases hnp : new = prev
        · rw [if_pos hnp] at hfc
          omega
        · simp only [hnp, ne_eq, not_false_eq_true, and_self, if_true, if_false] at hfc hmc ⊢
          omega
      · simp only [hpp, false_and, if_false] at hmc ⊢
        omega
  · refine ⟨rfl, fun hne => absurd rfl hne, if_neg (not_not.mpr rfl), .refl _, fun p _ => ?_⟩
    simp [RenameHistory.holds]
