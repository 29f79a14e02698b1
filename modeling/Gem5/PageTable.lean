/-
# The functional page table

`FuncPageTable` (`src/mem/page_table.cc`, `page_table.hh`) keeps the entries of
the mapped pages in a hash map and the last three that were used in a small cache,
the latest one first.  `lookup` believes the cache; `map`, `remap` and `unmap` change
the map and invalidate the page in the cache.

`eraseCacheEntry` invalidates the first slot with the page and no other, so no page
may be there twice.  `remap` does not see to that: it invalidates the page that it
moves away, and enters the new one without a look at what the cache has for it.  If
the new page was mapped and cached before, its old entry stays behind the new one, and
after `unmap` it is found again (`lookup_after_unmap`).

Entries are those of an ISA that implements `updateVaddr`.  A page is not in the
table if it is mapped to `none`, and a slot that is not valid is `none`.

* `Coherent`          — the cache has no page twice, and none that is not in the table.
* `RemapSafe`         — no page is moved to an address that the cache still has.
-/
import Mathlib
import Gem5.TransitionSystem

open List

open Function

/-! ## The cache -/

section Cache

variable {α β : Type}

/-- The keys of the valid slots. -/
def slotKeys (l : List (Option (α × β))) : List α := l.filterMap fun s => s.map Prod.fst

/-- No key is there twice, and each has the value of the table. -/
structure Coherent (table : α → Option β) (l : List (Option (α × β))) : Prop where
  nodup : (slotKeys l).Nodup
  valid : ∀ a e, some (a, e) ∈ l → table a = some e

variable {table table' : α → Option β} {l : List (Option (α × β))} {a b : α} {e : β}

theorem mem_slotKeys : a ∈ slotKeys l ↔ ∃ e, some (a, e) ∈ l := by
  rw [slotKeys, mem_filterMap]
  constructor
  · rintro ⟨_ | ⟨b, e⟩, hmem, heq⟩
    · cases heq
    · cases heq
      exact ⟨e, hmem⟩
  · rintro ⟨e, hmem⟩
    exact ⟨some (a, e), hmem, rfl⟩

/-- The table may change where the cache has no key. -/
theorem Coherent.congr (h : Coherent table l) (heq : ∀ b ∈ slotKeys l, table' b = table b) :
    Coherent table' l := by
  refine ⟨h.nodup, ?_⟩
  intro b e hmem
  rw [heq b (mem_slotKeys.mpr ⟨e, hmem⟩)]
  exact h.valid b e hmem

/-- A new key is entered, and the last slots go. -/
theorem Coherent.push (h : Coherent table l) (hnew : a ∉ slotKeys l) (ha : table a = some e)
    (n : ℕ) : Coherent table (some (a, e) :: l.take n) := by
  have hsub : (slotKeys (l.take n)).Sublist (slotKeys l) := (take_sublist n l).filterMap _
  constructor
  · exact nodup_cons.mpr ⟨fun hmem => hnew (hsub.subset hmem), h.nodup.sublist hsub⟩
  · intro b e' hmem
    rcases mem_cons.mp hmem with heq | hmem
    · cases heq
      exact ha
    · exact h.valid b e' (mem_of_mem_take hmem)

variable [DecidableEq α]

/-- The first valid slot with the key. -/
def findSlot (a : α) : List (Option (α × β)) → Option β
  | [] => none
  | none :: l => findSlot a l
  | some (b, e) :: l => if b = a then some e else findSlot a l

/-- Invalidate the first valid slot with the key. -/
def eraseSlot (a : α) : List (Option (α × β)) → List (Option (α × β))
  | [] => []
  | none :: l => none :: eraseSlot a l
  | some (b, e) :: l => if b = a then none :: l else some (b, e) :: eraseSlot a l

theorem mem_of_findSlot (h : findSlot a l = some e) : some (a, e) ∈ l := by
  induction l with
  | nil => cases h
  | cons s l ih =>
    match s with
    | none => exact mem_cons_of_mem _ (ih h)
    | some (b, e') =>
      rw [findSlot] at h
      split at h
      · rename_i hb
        cases h
        exact hb ▸ mem_cons_self
      · exact mem_cons_of_mem _ (ih h)

theorem not_mem_slotKeys_of_findSlot (h : findSlot a l = none) : a ∉ slotKeys l := by
  rw [mem_slotKeys]
  rintro ⟨e, hmem⟩
  induction l with
  | nil => cases hmem
  | cons s l ih =>
    match s with
    | none =>
      rcases mem_cons.mp hmem with heq | hmem
      · cases heq
      · exact ih h hmem
    | some (b, e') =>
      rw [findSlot] at h
      split at h
      · cases h
      · rename_i hb
        rcases mem_cons.mp hmem with heq | hmem
        · exact hb (Prod.mk.inj (Option.some.inj heq)).1.symm
        · exact ih h hmem

/-- Only the first slot with the key is gone. -/
theorem slotKeys_eraseSlot : slotKeys (eraseSlot a l) = (slotKeys l).erase a := by
  induction l with
  | nil => rfl
  | cons s l ih =>
    match s with
    | none => exact ih
    | some (b, e) =>
      rw [eraseSlot]
      split_ifs with hb
      · subst hb
        exact (erase_cons_head ..).symm
      · show b :: slotKeys (eraseSlot a l) = (b :: slotKeys l).erase a
        rw [erase_cons_tail (by simpa using hb), ih]

@[simp] theorem length_eraseSlot : (eraseSlot a l).length = l.length := by
  induction l with
  | nil => rfl
  | cons s l ih =>
    match s with
    | none => exact congrArg (· + 1) ih
    | some (b, e) =>
      rw [eraseSlot]
      split
      · rfl
      · exact congrArg (· + 1) ih

theorem mem_take_of_eraseSlot {n : ℕ} {x : α × β} (h : some x ∈ (eraseSlot a l).take n) :
    some x ∈ l.take n := by
  induction l generalizing n with
  | nil => exact h
  | cons s l ih =>
    obtain _ | n := n
    · exact h
    match s with
    | none =>
      rw [eraseSlot, take_succ_cons, mem_cons] at h
      exact mem_cons.mpr (h.imp_right ih)
    | some (b, e) =>
      rw [eraseSlot] at h
      split at h
      · rw [take_succ_cons, mem_cons] at h
        rcases h with heq | h
        · cases heq
        · exact mem_cons_of_mem _ h
      · rw [take_succ_cons, mem_cons] at h
        exact mem_cons.mpr (h.imp_right ih)

theorem mem_slotKeys_take_of_eraseSlot {n : ℕ} (h : b ∈ slotKeys ((eraseSlot a l).take n)) :
    b ∈ slotKeys (l.take n) := by
  obtain ⟨e, hmem⟩ := mem_slotKeys.mp h
  exact mem_slotKeys.mpr ⟨e, mem_take_of_eraseSlot hmem⟩

namespace Coherent

theorem findSlot_eq (h : Coherent table l) (hfind : findSlot a l = some e) : table a = some e :=
  h.valid a e (mem_of_findSlot hfind)

/-- After an erasure the key is not there any more. -/
theorem not_mem_eraseSlot (h : Coherent table l) : a ∉ slotKeys (eraseSlot a l) := by
  rw [slotKeys_eraseSlot]
  exact h.nodup.not_mem_erase

theorem erase (h : Coherent table l) (a : α) : Coherent table (eraseSlot a l) := by
  constructor
  · rw [slotKeys_eraseSlot]
    exact h.nodup.erase a
  · intro b e hmem
    have htake : some (b, e) ∈ (eraseSlot a l).take l.length := by
      rwa [take_of_length_le length_eraseSlot.le]
    exact h.valid b e (mem_of_mem_take (mem_take_of_eraseSlot htake))

end Coherent

end Cache

/-! ## The page table -/

abbrev PageAddr := BitVec 64

/-- The entries of an ISA: what `map` makes, and what `remap` changes, which is not the frame. -/
structure TlbIsa (Entry : Type) where
  tlbEntry : BitVec 64 → PageAddr → PageAddr → Bool → Bool → Entry
  default : Entry
  updateVaddr : Entry → PageAddr → Entry
  pageStart : Entry → PageAddr
  pageStart_updateVaddr : ∀ e a, pageStart (updateVaddr e a) = pageStart e

/-- The parameters of a page table; the page size is a power of two. -/
structure PageParams (Entry : Type) where
  isa : TlbIsa Entry
  pid : BitVec 64
  pageBits : ℕ
  pageBits_lt : pageBits < 64

structure FuncPageTable {Entry : Type} (p : PageParams Entry) where
  pTable : PageAddr → Option Entry
  pTableCache : List (Option (PageAddr × Entry))
  length_cache : pTableCache.length = 3

namespace PageParams

variable {Entry : Type} (p : PageParams Entry)

def pageSize : PageAddr := BitVec.ofNat 64 (2 ^ p.pageBits)

def offsetMask : PageAddr := BitVec.ofNat 64 (2 ^ p.pageBits - 1)

def pageAlign (a : PageAddr) : PageAddr := a &&& ~~~ p.offsetMask

def pageOffset (a : PageAddr) : PageAddr := a &&& p.offsetMask

/-- How often a loop that takes `pageSize` off `size` goes round. -/
def pageCount (size : Int64) : ℕ := (size.toInt.toNat + 2 ^ p.pageBits - 1) / 2 ^ p.pageBits

/-- The page `k` pages after the address. -/
def page (vaddr : PageAddr) (k : ℕ) : PageAddr := vaddr + BitVec.ofNat 64 (k * 2 ^ p.pageBits)

/-- A loop over pages, with two addresses that go on together. -/
def forPages {σ : Type} (body : σ → PageAddr → PageAddr → Except Abort σ) :
    ℕ → σ → PageAddr → PageAddr → Except Abort σ
  | 0, s, _, _ => .ok s
  | n + 1, s, vaddr, addr => do
    let s ← body s vaddr addr
    forPages body n s (vaddr + p.pageSize) (addr + p.pageSize)

variable {p}

theorem pageCount_mul_lt (size : Int64) : p.pageCount size * 2 ^ p.pageBits < 2 ^ 64 := by
  have hsize : size.toInt < 2 ^ 63 := size.toInt_lt
  have hbits : 2 ^ p.pageBits ≤ 2 ^ 63 :=
    Nat.pow_le_pow_right (by decide) (Nat.le_of_lt_succ p.pageBits_lt)
  calc p.pageCount size * 2 ^ p.pageBits ≤ size.toInt.toNat + 2 ^ p.pageBits - 1 :=
        Nat.div_mul_le_self _ _
    _ < 2 ^ 64 := by omega

@[simp] theorem page_zero (a : PageAddr) : p.page a 0 = a := by
  rw [page, Nat.zero_mul]
  exact BitVec.add_zero a

theorem page_add_pageSize (a : PageAddr) (k : ℕ) :
    p.page (a + p.pageSize) k = p.page a (k + 1) := by
  rw [page, page, pageSize, BitVec.add_assoc, ← BitVec.ofNat_add, Nat.succ_mul, Nat.add_comm]

/-- The pages of a range that does not go round are different. -/
theorem page_inj {a : PageAddr} {i j : ℕ} (hi : i * 2 ^ p.pageBits < 2 ^ 64)
    (hj : j * 2 ^ p.pageBits < 2 ^ 64) (h : p.page a i = p.page a j) : i = j := by
  have hofNat := (BitVec.add_right_inj a).mp h
  have htoNat : i * 2 ^ p.pageBits = j * 2 ^ p.pageBits := by
    have := congrArg BitVec.toNat hofNat
    rwa [BitVec.toNat_ofNat, BitVec.toNat_ofNat, Nat.mod_eq_of_lt hi, Nat.mod_eq_of_lt hj] at this
  exact Nat.eq_of_mul_eq_mul_right (Nat.two_pow_pos _) htoNat

theorem forPages_invariant {σ : Type} {body : σ → PageAddr → PageAddr → Except Abort σ}
    {P : σ → Prop} (hbody : ∀ s v w t, P s → body s v w = .ok t → P t) (n : ℕ) :
    ∀ {s t v w}, P s → p.forPages body n s v w = .ok t → P t := by
  induction n with
  | zero =>
    intro s t v w hs h
    exact Except.ok.inj h ▸ hs
  | succ n ih =>
    intro s t v w hs h
    obtain ⟨s₁, h₁, h⟩ := Except.bind_eq_ok h
    exact ih (hbody s v w s₁ hs h₁) h

end PageParams

abbrev MappingFlags := BitVec 64

namespace MappingFlags

def Clobber : MappingFlags := 1

def Uncacheable : MappingFlags := 4

def ReadOnly : MappingFlags := 8

def has (flags bit : MappingFlags) : Bool := flags &&& bit != 0

end MappingFlags

inductive PageOp
  | map (vaddr paddr : PageAddr) (size : Int64) (flags : MappingFlags)
  | remap (vaddr : PageAddr) (size : Int64) (newVaddr : PageAddr)
  | unmap (vaddr : PageAddr) (size : Int64)
  | lookup (vaddr : PageAddr)

namespace FuncPageTable

variable {Entry : Type} {p : PageParams Entry}

/-- No page is mapped and no slot is valid. -/
def empty : FuncPageTable p where
  pTable := fun _ => none
  pTableCache := [none, none, none]
  length_cache := rfl

def updateCache (s : FuncPageTable p) (vaddr : PageAddr) (entry : Entry) : FuncPageTable p where
  pTable := s.pTable
  pTableCache := some (vaddr, entry) :: s.pTableCache.take 2
  length_cache := by simp [s.length_cache]

def eraseCacheEntry (s : FuncPageTable p) (vaddr : PageAddr) : FuncPageTable p where
  pTable := s.pTable
  pTableCache := eraseSlot vaddr s.pTableCache
  length_cache := by simp [s.length_cache]

/-- An assignment to `pTable[vaddr]`. -/
def setEntry (s : FuncPageTable p) (vaddr : PageAddr) (entry : Entry) : FuncPageTable p :=
  { s with pTable := Function.update s.pTable vaddr (some entry) }

def eraseEntry (s : FuncPageTable p) (vaddr : PageAddr) : FuncPageTable p :=
  { s with pTable := Function.update s.pTable vaddr none }

/-- One round of `map`. -/
def mapPage (flags : MappingFlags) (s : FuncPageTable p) (vaddr paddr : PageAddr) :
    Except Abort (FuncPageTable p) :=
  if flags.has .Clobber = false ∧ (s.pTable vaddr).isSome then .error .assertion
  else
    let entry := p.isa.tlbEntry p.pid vaddr paddr (flags.has .Uncacheable)
      (flags.has .ReadOnly)
    .ok (((s.setEntry vaddr entry).eraseCacheEntry vaddr).updateCache vaddr entry)

/-- One round of `remap`.  If the page is moved to itself, `pTable[new_vaddr]` makes a new entry
for it. -/
def remapPage (s : FuncPageTable p) (vaddr newVaddr : PageAddr) : Except Abort (FuncPageTable p) :=
  match s.pTable vaddr with
  | none => .error .assertion
  | some entry =>
    let s := ((s.setEntry newVaddr entry).eraseEntry vaddr).eraseCacheEntry vaddr
    let entry := p.isa.updateVaddr ((s.pTable newVaddr).getD p.isa.default) newVaddr
    .ok ((s.setEntry newVaddr entry).updateCache newVaddr entry)

/-- One round of `unmap`. -/
def unmapPage (s : FuncPageTable p) (vaddr _ : PageAddr) : Except Abort (FuncPageTable p) :=
  if (s.pTable vaddr).isSome then .ok ((s.eraseEntry vaddr).eraseCacheEntry vaddr)
  else .error .assertion

def map (s : FuncPageTable p) (vaddr paddr : PageAddr) (size : Int64) (flags : MappingFlags) :
    Except Abort (FuncPageTable p) :=
  if p.pageOffset vaddr = 0 then p.forPages (mapPage flags) (p.pageCount size) s vaddr paddr
  else .error .assertion

def remap (s : FuncPageTable p) (vaddr : PageAddr) (size : Int64) (newVaddr : PageAddr) :
    Except Abort (FuncPageTable p) :=
  if p.pageOffset vaddr = 0 ∧ p.pageOffset newVaddr = 0 then
    p.forPages remapPage (p.pageCount size) s vaddr newVaddr
  else .error .assertion

def unmap (s : FuncPageTable p) (vaddr : PageAddr) (size : Int64) :
    Except Abort (FuncPageTable p) :=
  if p.pageOffset vaddr = 0 then p.forPages unmapPage (p.pageCount size) s vaddr vaddr
  else .error .assertion

def lookup (s : FuncPageTable p) (vaddr : PageAddr) : Option Entry × FuncPageTable p :=
  let pageAddr := p.pageAlign vaddr
  match findSlot pageAddr s.pTableCache with
  | some entry => (some entry, s)
  | none =>
    match s.pTable pageAddr with
    | none => (none, s)
    | some entry => (some entry, s.updateCache pageAddr entry)

def step (s : FuncPageTable p) : PageOp → Except Abort (FuncPageTable p)
  | .map vaddr paddr size flags => s.map vaddr paddr size flags
  | .remap vaddr size newVaddr => s.remap vaddr size newVaddr
  | .unmap vaddr size => s.unmap vaddr size
  | .lookup vaddr => .ok (s.lookup vaddr).2

/-- No page is moved to an address that the cache still has when its turn comes, unless it is
one of the pages moved away by then.  A slot goes back by one with every page. -/
def RemapSafe (s : FuncPageTable p) (n : ℕ) (vaddr newVaddr : PageAddr) : Prop :=
  ∀ k < n, p.page newVaddr k ∈ slotKeys (s.pTableCache.take (3 - k)) →
    ∃ j ≤ k, p.page newVaddr k = p.page vaddr j

instance (s : FuncPageTable p) (n : ℕ) (vaddr newVaddr : PageAddr) :
    Decidable (s.RemapSafe n vaddr newVaddr) := by
  unfold RemapSafe
  infer_instance

/-- The condition on a call. -/
def Safe (s : FuncPageTable p) : PageOp → Prop
  | .remap vaddr size newVaddr => s.RemapSafe (p.pageCount size) vaddr newVaddr
  | _ => True

instance (s : FuncPageTable p) (op : PageOp) : Decidable (s.Safe op) := by
  unfold Safe
  split <;> infer_instance

/-! ## The cache agrees with the table -/

variable {s t : FuncPageTable p} {v w : PageAddr}

abbrev Agrees (s : FuncPageTable p) : Prop := Coherent s.pTable s.pTableCache

theorem agrees_empty : (empty : FuncPageTable p).Agrees := by
  refine ⟨nodup_nil, ?_⟩
  intro a e hmem
  rcases mem_cons.mp hmem with heq | hmem
  · cases heq
  · simp at hmem

/-- What the cache says is what the table says. -/
theorem Agrees.lookup_fst (h : s.Agrees) (v : PageAddr) :
    (s.lookup v).1 = s.pTable (p.pageAlign v) := by
  rw [lookup]
  split
  · rename_i e hfind
    exact (h.findSlot_eq hfind).symm
  · split
    · rename_i hnone
      exact hnone.symm
    · rename_i e hsome
      exact hsome.symm

theorem Agrees.lookup_snd (h : s.Agrees) (v : PageAddr) : (s.lookup v).2.Agrees := by
  rw [lookup]
  split
  · exact h
  · rename_i hfind
    split
    · exact h
    · rename_i e hsome
      exact h.push (not_mem_slotKeys_of_findSlot hfind) hsome 2

/-- A page that is changed in the table is invalidated, and may then be entered. -/
theorem Agrees.forget (h : s.Agrees) {table : PageAddr → Option Entry}
    (htable : ∀ b, b ≠ v → table b = s.pTable b) :
    Coherent table (eraseSlot v s.pTableCache) := by
  apply (h.erase v).congr
  intro b hb
  apply htable
  rintro rfl
  exact h.not_mem_eraseSlot hb

theorem Agrees.mapPage (h : s.Agrees) {flags : MappingFlags} (hmap : s.mapPage flags v w = .ok t) :
    t.Agrees := by
  rw [FuncPageTable.mapPage] at hmap
  split at hmap
  · cases hmap
  · cases hmap
    refine (h.forget ?_).push h.not_mem_eraseSlot (update_self ..) 2
    intro b hb
    exact update_of_ne hb _ _

theorem Agrees.unmapPage (h : s.Agrees) (hunmap : s.unmapPage v w = .ok t) : t.Agrees := by
  rw [FuncPageTable.unmapPage] at hunmap
  split at hunmap
  · cases hunmap
    apply h.forget
    intro b hb
    exact update_of_ne hb _ _
  · cases hunmap

/-- What one round of `remap` does. -/
theorem remapPage_eq_ok (h : s.remapPage v w = .ok t) :
    ∃ e e', s.pTable v = some e ∧ (v ≠ w → p.isa.pageStart e' = p.isa.pageStart e) ∧
      t.pTable = update (update s.pTable v none) w (some e') ∧
      t.pTableCache = some (w, e') :: (eraseSlot v s.pTableCache).take 2 := by
  rw [remapPage] at h
  split at h
  · cases h
  · rename_i e he
    cases h
    refine ⟨e, _, he, ?_, ?_, rfl⟩
    · intro hvw
      have hmoved : ((s.setEntry w e).eraseEntry v).pTable w = some e := by
        show update (update s.pTable w (some e)) v none w = some e
        rw [update_of_ne hvw.symm, update_self]
      show p.isa.pageStart (p.isa.updateVaddr
        ((((s.setEntry w e).eraseEntry v).pTable w).getD p.isa.default) w) = p.isa.pageStart e
      rw [hmoved, p.isa.pageStart_updateVaddr]
      rfl
    · funext a
      rcases eq_or_ne a w with rfl | ha
      · rw [update_self]
        exact update_self ..
      · rw [update_of_ne ha]
        refine (update_of_ne ha _ _).trans ?_
        rcases eq_or_ne a v with rfl | hv
        · rw [update_self]
          exact update_self ..
        · rw [update_of_ne hv]
          exact (update_of_ne hv _ _).trans (update_of_ne ha _ _)

theorem RemapSafe.not_mem (h : s.Agrees) {n : ℕ} (hsafe : s.RemapSafe (n + 1) v w) :
    w ∉ slotKeys (eraseSlot v s.pTableCache) := by
  intro hmem
  have htake : w ∈ slotKeys (s.pTableCache.take 3) := by
    apply mem_slotKeys_take_of_eraseSlot (a := v)
    rwa [take_of_length_le (by simp [s.length_cache])]
  obtain ⟨j, hj, hvw⟩ := hsafe 0 n.succ_pos (by simpa using htake)
  obtain rfl := Nat.le_zero.mp hj
  rw [p.page_zero, p.page_zero] at hvw
  exact h.not_mem_eraseSlot (hvw ▸ hmem)

theorem Agrees.remapPage (h : s.Agrees) {n : ℕ} (hsafe : s.RemapSafe (n + 1) v w)
    (hremap : s.remapPage v w = .ok t) : t.Agrees := by
  obtain ⟨e, e', he, -, htable, hcache⟩ := remapPage_eq_ok hremap
  have hnew := hsafe.not_mem h
  rw [Agrees, htable, hcache]
  refine Coherent.push ?_ hnew (update_self ..) 2
  have hforget : Coherent (update s.pTable v none) (eraseSlot v s.pTableCache) := by
    apply h.forget
    intro b hb
    exact update_of_ne hb _ _
  apply hforget.congr
  intro b hb
  apply update_of_ne
  rintro rfl
  exact hnew hb

/-- A slot goes back by one, and what was moved away is invalid. -/
theorem RemapSafe.tail (h : s.Agrees) {n : ℕ} (hn : (n + 1) * 2 ^ p.pageBits < 2 ^ 64)
    (hsafe : s.RemapSafe (n + 1) v w) (hremap : s.remapPage v w = .ok t) :
    t.RemapSafe n (v + p.pageSize) (w + p.pageSize) := by
  obtain ⟨e, e', -, -, -, hcache⟩ := remapPage_eq_ok hremap
  intro k hk hmem
  rw [p.page_add_pageSize] at hmem ⊢
  rw [hcache] at hmem
  have hlt : ∀ i ≤ n, i * 2 ^ p.pageBits < 2 ^ 64 := by
    intro i hi
    exact (Nat.mul_le_mul_right _ (by omega)).trans_lt hn
  have hne : p.page w (k + 1) ≠ w := by
    intro heq
    cases p.page_inj (hlt (k + 1) hk) (hlt 0 n.zero_le) (heq.trans (p.page_zero w).symm)
  -- The new slot has the address before, so the page is in one of the old ones.
  have hold : p.page w (k + 1) ∈ slotKeys ((eraseSlot v s.pTableCache).take (3 - (k + 1))) := by
    obtain ⟨x, hx⟩ := mem_slotKeys.mp hmem
    rcases hm : 3 - k with _ | m
    · rw [hm] at hx
      exact absurd hx not_mem_nil
    · rw [hm, take_succ_cons, mem_cons, take_take] at hx
      rcases hx with heq | hx
      · exact absurd (Prod.mk.inj (Option.some.inj heq)).1 hne
      · rw [show min m 2 = 3 - (k + 1) by omega] at hx
        exact mem_slotKeys.mpr ⟨x, hx⟩
  obtain ⟨j, hj, heq⟩ := hsafe (k + 1) (by omega) (mem_slotKeys_take_of_eraseSlot hold)
  obtain _ | j := j
  · rw [heq, p.page_zero] at hold
    have hsub := (take_sublist (3 - (k + 1)) (eraseSlot v s.pTableCache)).filterMap
      fun x => x.map Prod.fst
    exact absurd (hsub.subset hold) h.not_mem_eraseSlot
  · exact ⟨j, by omega, heq.trans (p.page_add_pageSize v j).symm⟩

theorem Agrees.remapPages (n : ℕ) : ∀ {s t : FuncPageTable p} {v w : PageAddr}, s.Agrees →
    n * 2 ^ p.pageBits < 2 ^ 64 → s.RemapSafe n v w →
    p.forPages FuncPageTable.remapPage n s v w = .ok t → t.Agrees := by
  induction n with
  | zero =>
    intro s t v w h _ _ hok
    exact Except.ok.inj hok ▸ h
  | succ n ih =>
    intro s t v w h hn hsafe hok
    obtain ⟨s₁, h₁, hok⟩ := Except.bind_eq_ok hok
    refine ih (h.remapPage hsafe h₁) ?_ (hsafe.tail h hn h₁) hok
    exact (Nat.mul_le_mul_right _ n.le_succ).trans_lt hn

/-- Every call that meets the condition keeps the agreement. -/
theorem Agrees.step (h : s.Agrees) {op : PageOp} (hsafe : s.Safe op) (hstep : s.step op = .ok t) :
    t.Agrees := by
  match op with
  | .map vaddr paddr size flags =>
    rw [FuncPageTable.step, FuncPageTable.map] at hstep
    split at hstep
    · refine p.forPages_invariant (P := Agrees) ?_ _ h hstep
      intro s v w t hs ht
      exact hs.mapPage ht
    · cases hstep
  | .remap vaddr size newVaddr =>
    rw [FuncPageTable.step, FuncPageTable.remap] at hstep
    split at hstep
    · exact Agrees.remapPages _ h (p.pageCount_mul_lt size) hsafe hstep
    · cases hstep
  | .unmap vaddr size =>
    rw [FuncPageTable.step, FuncPageTable.unmap] at hstep
    split at hstep
    · refine p.forPages_invariant (P := Agrees) ?_ _ h hstep
      intro s v w t hs ht
      exact hs.unmapPage ht
    · cases hstep
  | .lookup vaddr =>
    cases hstep
    exact h.lookup_snd vaddr

/-! ## Where the pages go -/

/-- The pages of the first range are gone, and those of the second have their frames. -/
def Moved (s t : FuncPageTable p) (n : ℕ) (v w : PageAddr) : Prop :=
  ∀ k < n, ∃ e e', s.pTable (p.page v k) = some e ∧ t.pTable (p.page w k) = some e' ∧
    p.isa.pageStart e' = p.isa.pageStart e ∧ t.pTable (p.page v k) = none

/-- `remap` moves the pages if the ranges have none in common, and leaves all others. -/
theorem moved_of_remapPages (n : ℕ) : ∀ {s t : FuncPageTable p} {v w : PageAddr},
    n * 2 ^ p.pageBits < 2 ^ 64 → (∀ i < n, ∀ j < n, p.page v i ≠ p.page w j) →
    p.forPages remapPage n s v w = .ok t →
    Moved s t n v w ∧ ∀ a, (∀ k < n, a ≠ p.page v k ∧ a ≠ p.page w k) → t.pTable a = s.pTable a := by
  induction n with
  | zero =>
    intro s t v w _ _ hok
    cases hok
    exact ⟨fun k hk => absurd hk k.not_lt_zero, fun a _ => rfl⟩
  | succ n ih =>
    intro s t v w hn hdisj hok
    obtain ⟨s₁, h₁, hok⟩ := Except.bind_eq_ok hok
    have hlt : ∀ i ≤ n, i * 2 ^ p.pageBits < 2 ^ 64 := by
      intro i hi
      exact (Nat.mul_le_mul_right _ (by omega)).trans_lt hn
    have hne : ∀ a, ∀ k < n, a ≠ p.page a (k + 1) := by
      intro a k hk heq
      cases p.page_inj (hlt 0 n.zero_le) (hlt (k + 1) hk) ((p.page_zero a).trans heq)
    obtain ⟨hmoved, hframe⟩ := ih (v := v + p.pageSize) (w := w + p.pageSize) (hlt n le_rfl)
      (by
        intro i hi j hj
        rw [p.page_add_pageSize, p.page_add_pageSize]
        exact hdisj _ (by omega) _ (by omega)) hok
    obtain ⟨e, e', he, hstart, htable, -⟩ := remapPage_eq_ok h₁
    have hvw : ∀ j ≤ n, v ≠ p.page w j := by
      intro j hj
      have := hdisj 0 n.succ_pos j (by omega)
      rwa [p.page_zero] at this
    have hwv : ∀ i ≤ n, w ≠ p.page v i := by
      intro i hi
      have := hdisj i (by omega) 0 n.succ_pos
      rw [p.page_zero] at this
      exact this.symm
    have hvw₀ : v ≠ w := by simpa using hvw 0 n.zero_le
    constructor
    · intro k hk
      obtain _ | k := k
      · -- The first page is moved by the first round, and not touched by the others.
        rw [p.page_zero, p.page_zero]
        refine ⟨e, e', he, ?_, hstart hvw₀, ?_⟩
        · rw [hframe w, htable, update_self]
          intro k hk
          rw [p.page_add_pageSize, p.page_add_pageSize]
          exact ⟨hwv _ hk, hne w k hk⟩
        · rw [hframe v, htable, update_of_ne hvw₀, update_self]
          intro k hk
          rw [p.page_add_pageSize, p.page_add_pageSize]
          exact ⟨hne v k hk, hvw _ hk⟩
      · have hk' : k < n := by omega
        obtain ⟨f, f', hf, hf', hstart', hgone⟩ := hmoved k hk'
        rw [p.page_add_pageSize] at hf hf' hgone
        refine ⟨f, f', ?_, hf', hstart', hgone⟩
        rwa [htable, update_of_ne (hwv _ hk').symm,
          update_of_ne (hne v k hk').symm] at hf
    · intro a ha
      rw [hframe a, htable]
      · have h₀ := ha 0 n.succ_pos
        rw [p.page_zero, p.page_zero] at h₀
        rw [update_of_ne h₀.2, update_of_ne h₀.1]
      · intro k hk
        rw [p.page_add_pageSize, p.page_add_pageSize]
        exact ha (k + 1) (by omega)

theorem moved_of_remap {size : Int64} (h : s.remap v size w = .ok t)
    (hdisj : ∀ i < p.pageCount size, ∀ j < p.pageCount size, p.page v i ≠ p.page w j) :
    Moved s t (p.pageCount size) v w := by
  rw [remap] at h
  split at h
  · exact (moved_of_remapPages _ (p.pageCount_mul_lt size) hdisj h).1
  · cases h

/-- **The lookup cache is not stale** in every run whose calls of `remap` meet the condition: a
lookup finds what the table has, and the pages of a range that is moved to a disjoint one take
their frames with them. -/
theorem lookup_cache_not_stale {ops : List PageOp} (h : Runs (Within step Safe) empty ops s) :
    (∀ v, (s.lookup v).1 = s.pTable (p.pageAlign v)) ∧
      ∀ v size w t, s.remap v size w = .ok t →
        (∀ i < p.pageCount size, ∀ j < p.pageCount size, p.page v i ≠ p.page w j) →
        Moved s t (p.pageCount size) v w := by
  have hs : s.Agrees := by
    refine h.invariant ?_ agrees_empty
    rintro s op t hs ⟨hsafe, hstep⟩
    exact hs.step hsafe hstep
  exact ⟨hs.lookup_fst, fun v size w t hremap hdisj => moved_of_remap hremap hdisj⟩

end FuncPageTable

/-! ## Two runs with entries of MIPS -/

/-- `MipsISA::TlbEntry`. -/
structure MipsTlbEntry where
  pageStart : PageAddr
  deriving DecidableEq

/-- A new entry is not initialised; here it has frame 0. -/
def mipsIsa : TlbIsa MipsTlbEntry where
  tlbEntry _ _ paddr _ _ := ⟨paddr⟩
  default := ⟨0⟩
  updateVaddr e _ := e
  pageStart e := e.pageStart
  pageStart_updateVaddr _ _ := rfl

/-- A page table of process 1 with pages of 4 kB. -/
def mipsPages : PageParams MipsTlbEntry where
  isa := mipsIsa
  pid := 1
  pageBits := 12
  pageBits_lt := by decide

namespace FuncPageTable

/-- Two pages are moved by one, so that the second takes the place of the first, and are looked
up. -/
theorem lookup_cache_not_stale_overlap :
    ∃ s : FuncPageTable mipsPages, Runs (Within step Safe) empty
        [.map 0x2000 0x8000 0x2000 0, .remap 0x2000 0x2000 0x1000, .lookup 0x1004] s ∧
      s.pTable 0x1000 = some ⟨0x8000⟩ ∧ (s.lookup 0x1008).1 = some ⟨0x8000⟩ := by
  refine exists_runs_and_of_execWithin (by decide +kernel) ?_
  intro s hrun hpage
  rw [(lookup_cache_not_stale hrun).1 0x1008]
  exact hpage

/-- A page is moved to one that is mapped and cached, and unmapped there: a lookup finds the entry
that was there first. -/
theorem lookup_after_unmap :
    ∃ s : FuncPageTable mipsPages, Runs (Within step Anytime) empty
        [.map 0x1000 0x8000 0x1000 0, .map 0x2000 0x9000 0x1000 0, .remap 0x2000 0x1000 0x1000,
          .unmap 0x1000 0x1000] s ∧
      (s.pTable 0x1000 = none ∧ (s.lookup 0x1000).1 = some ⟨0x8000⟩) :=
  exists_runs_of_execWithin (by decide +kernel)

end FuncPageTable
