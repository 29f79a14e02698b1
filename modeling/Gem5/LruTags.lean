/-
# Set-associative tags with LRU replacement

`LRU` (`src/mem/cache/tags/lru.cc`) over `BaseSetAssoc` and `CacheSet`.  The blocks of a
set never move; the array `blks` of pointers to them is kept in order of use, the
latest first.  An access and an insertion move a block to the head, an invalidation
moves it to the tail, and the victim is the last one.

Both moves are loops that carry a block along the array and put it down where the moved
block was found.  They run off the array if it is not there, so that the array has to
stay a permutation of the blocks for them to end (`rotate_eq_ok`).

A pointer to a block is its set and its way.  The ghost part of `LruSystem` is the time of
the last access or insertion of each block; a fill is an insertion into the victim together
with the status that the cache gives it afterwards.

* `CacheSet.moveToHead`, `CacheSet.moveToTail` — the two rotations.
* `Before`            — of two blocks of a set, the second goes first.
* `LruOrdered`        — what holds of a set in every state reached.
-/
import Mathlib
import Gem5.TransitionSystem

open Function

/-! ## The rotations -/

section Rotation

variable {α : Type} [DecidableEq α]

/-- The loop of `moveToHead`, over the rest of the array: `next` is put down at the front, and what
was there is carried on, until that is `blk`. -/
def rotate (blk next : α) : List α → Except Abort (List α)
  | [] => .error .assertion
  | b :: rest => if b = blk then .ok (next :: rest) else (next :: ·) <$> rotate blk b rest

theorem rotate_eq_ok {x : α} {l : List α} (hx : x ∈ l) :
    ∀ y, rotate x y l = .ok (y :: l.erase x) := by
  induction l with
  | nil => exact absurd hx List.not_mem_nil
  | cons b l ih =>
    intro y
    rw [rotate]
    rcases eq_or_ne b x with rfl | hb
    · rw [if_pos rfl, List.erase_cons_head]
    · rw [if_neg hb, List.erase_cons_tail (by simpa using hb)]
      have hx : x ∈ l := (List.mem_cons.mp hx).resolve_left (Ne.symm hb)
      rw [ih hx b]
      rfl

theorem erase_reverse_of_nodup {l : List α} (hl : l.Nodup) (x : α) :
    l.reverse.erase x = (l.erase x).reverse := by
  rw [(List.nodup_reverse.mpr hl).erase_eq_filter, hl.erase_eq_filter, List.filter_reverse]

section Order

variable {R R' : α → α → Prop} {l : List α} {x : α}

/-- An order that holds apart from `x` before and after is kept by the rest of the list. -/
theorem pairwise_erase (hl : l.Pairwise R) (hnd : l.Nodup)
    (hR : ∀ a b, a ≠ x → b ≠ x → R a b → R' a b) : (l.erase x).Pairwise R' := by
  apply (hl.sublist List.erase_sublist).imp_of_mem
  intro a b ha hb hab
  exact hR a b (hnd.mem_erase_iff.mp ha).1 (hnd.mem_erase_iff.mp hb).1 hab

theorem pairwise_head (hl : l.Pairwise R) (hnd : l.Nodup)
    (hR : ∀ a b, a ≠ x → b ≠ x → R a b → R' a b) (hx : ∀ b, b ≠ x → R' x b) :
    (x :: l.erase x).Pairwise R' := by
  refine List.pairwise_cons.mpr ⟨?_, pairwise_erase hl hnd hR⟩
  intro b hb
  exact hx b (hnd.mem_erase_iff.mp hb).1

theorem pairwise_tail (hl : l.Pairwise R) (hnd : l.Nodup)
    (hR : ∀ a b, a ≠ x → b ≠ x → R a b → R' a b) (hx : ∀ a, a ≠ x → R' a x) :
    (l.erase x ++ [x]).Pairwise R' := by
  refine List.pairwise_append.mpr ⟨pairwise_erase hl hnd hR, List.pairwise_singleton .., ?_⟩
  intro a ha b hb
  obtain rfl := List.mem_singleton.mp hb
  exact hx a (hnd.mem_erase_iff.mp ha).1

end Order

end Rotation

/-! ## The tag store -/

/-- The tag and the two bits of the status that are read here. -/
structure CacheBlk where
  tag : BitVec 64
  valid : Bool := false
  secure : Bool := false
  deriving DecidableEq

namespace CacheBlk

/-- `status = 0`. -/
def invalidate (b : CacheBlk) : CacheBlk := { b with valid := false, secure := false }

/-- Whether `findBlk` is after this block. -/
def hits (b : CacheBlk) (tag : BitVec 64) (isSecure : Bool) : Bool :=
  b.tag == tag && b.valid && b.secure == isSecure

/-- The status bits that the cache adds when a block is filled. -/
def markValid (b : CacheBlk) (isSecure : Bool) : CacheBlk :=
  { b with valid := true, secure := b.secure || isSecure }

end CacheBlk

/-- The blocks of a set, by their way, and the order of use. -/
structure CacheSet (assoc : ℕ) where
  blks : List (Fin assoc)
  blk : Fin assoc → CacheBlk

namespace CacheSet

variable {assoc : ℕ}

/-- A set of the constructor: all blocks are invalid, and the tags are the ways. -/
def initial : CacheSet assoc where
  blks := List.finRange assoc
  blk := fun j => { tag := BitVec.ofNat 64 j }

variable (c : CacheSet assoc)

def findBlk (tag : BitVec 64) (isSecure : Bool) : Option (Fin assoc) :=
  c.blks.find? fun b => (c.blk b).hits tag isSecure

def moveToHead (b : Fin assoc) : Except Abort (CacheSet assoc) :=
  if c.blks[0]? = some b then .ok c
  else do
    let blks ← rotate b b c.blks
    return { c with blks }

/-- The same loop from the other end. -/
def moveToTail (b : Fin assoc) : Except Abort (CacheSet assoc) :=
  if c.blks[assoc - 1]? = some b then .ok c
  else do
    let blks ← rotate b b c.blks.reverse
    return { c with blks := blks.reverse }

def setBlk (b : Fin assoc) (f : CacheBlk → CacheBlk) : CacheSet assoc :=
  { c with blk := Function.update c.blk b (f (c.blk b)) }

/-- `LRU::accessBlock`. -/
def accessBlock (tag : BitVec 64) (isSecure : Bool) :
    Except Abort (Option (Fin assoc) × CacheSet assoc) :=
  match c.findBlk tag isSecure with
  | none => .ok (none, c)
  | some b => do
    let c ← c.moveToHead b
    return (some b, c)

/-- `LRU::findVictim`; the access is out of bounds if there is no such block. -/
def findVictim : Except Abort (Fin assoc) :=
  match c.blks[assoc - 1]? with
  | none => .error .undefined
  | some b => .ok b

/-- `LRU::insertBlock`: a valid block is invalidated first. -/
def insertBlock (tag : BitVec 64) (b : Fin assoc) :
    Except Abort (CacheSet assoc) :=
  let c := if (c.blk b).valid then c.setBlk b CacheBlk.invalidate else c
  (c.setBlk b fun x => { x with tag }).moveToHead b

/-- `LRU::invalidate`, which does not touch the status. -/
def invalidate (b : Fin assoc) : Except Abort (CacheSet assoc) :=
  if (c.blk b).valid then c.moveToTail b else .error .assertion

/-! ## What the operations do to a set -/

/-- The array is a permutation of the blocks. -/
def Complete : Prop := c.blks.Perm (List.finRange assoc)

variable {c : CacheSet assoc}

namespace Complete

section

variable (h : c.Complete)

include h

theorem nodup : c.blks.Nodup := h.nodup_iff.mpr (List.nodup_finRange assoc)

theorem mem (b : Fin assoc) : b ∈ c.blks := h.mem_iff.mpr (List.mem_finRange b)

theorem length_eq : c.blks.length = assoc :=
  (List.Perm.length_eq h).trans List.length_finRange

theorem getElem?_last : c.blks[assoc - 1]? = c.blks.getLast? := by
  rw [List.getLast?_eq_getElem?, h.length_eq]

section

variable (b : Fin assoc)

theorem perm_head :
    (b :: c.blks.erase b).Perm (List.finRange assoc) :=
  (List.perm_cons_erase (h.mem b)).symm.trans h

theorem perm_tail :
    (c.blks.erase b ++ [b]).Perm (List.finRange assoc) :=
  (List.perm_append_singleton b _).trans (h.perm_head b)

theorem moveToHead :
    c.moveToHead b = .ok { c with blks := b :: c.blks.erase b } := by
  rw [CacheSet.moveToHead]
  split
  · rename_i hhead
    obtain ⟨rest, hrest⟩ : ∃ rest, c.blks = b :: rest := by
      rw [← List.head?_eq_getElem?] at hhead
      exact List.head?_eq_some_iff.mp hhead
    rw [hrest, List.erase_cons_head, ← hrest]
  · rw [rotate_eq_ok (h.mem b)]
    rfl

theorem moveToTail :
    c.moveToTail b = .ok { c with blks := c.blks.erase b ++ [b] } := by
  rw [CacheSet.moveToTail]
  split
  · rename_i htail
    obtain ⟨rest, hrest⟩ : ∃ rest, c.blks = rest ++ [b] := by
      rw [h.getElem?_last] at htail
      exact List.getLast?_eq_some_iff.mp htail
    have hnot : b ∉ rest := by
      have hnd := h.nodup
      rw [hrest] at hnd
      exact fun hb => (List.nodup_append.mp hnd).2.2 b hb b List.mem_cons_self rfl
    rw [hrest, List.erase_append_right _ hnot, List.erase_cons_head, List.append_nil, ← hrest]
  · rw [rotate_eq_ok (List.mem_reverse.mpr (h.mem b)), erase_reverse_of_nodup h.nodup]
    simp [bind, Except.bind, pure, Except.pure]

theorem setBlk (f : CacheBlk → CacheBlk) :
    (c.setBlk b f).Complete := h

end

/-- The victim is the last block of the array. -/
theorem findVictim (hpos : 0 < assoc) :
    ∃ b rest, c.findVictim = .ok b ∧ c.blks = rest ++ [b] := by
  have hne : c.blks ≠ [] := by
    intro hnil
    have := h.length_eq
    rw [hnil, List.length_nil] at this
    omega
  refine ⟨c.blks.getLast hne, c.blks.dropLast, ?_, (List.dropLast_append_getLast hne).symm⟩
  rw [CacheSet.findVictim, h.getElem?_last, List.getLast?_eq_some_getLast hne]

end

end Complete

theorem findBlk_some {tag : BitVec 64} {isSecure : Bool} {b : Fin assoc}
    (h : c.findBlk tag isSecure = some b) : (c.blk b).hits tag isSecure = true := by
  exact List.find?_some (p := fun b => (c.blk b).hits tag isSecure) h

theorem findBlk_none (hc : c.Complete) {tag : BitVec 64} {isSecure : Bool}
    (h : c.findBlk tag isSecure = none) (b : Fin assoc) : (c.blk b).hits tag isSecure ≠ true :=
  List.find?_eq_none.mp h b (hc.mem b)

/-! ## The order of use -/

section Order

variable {lastUse : Fin assoc → ℕ} {now : ℕ}

/-- Of two blocks of a set, the second goes first: if it is valid, the other one is, and was used
later. -/
def Before (c : CacheSet assoc) (lastUse : Fin assoc → ℕ) (a b : Fin assoc) : Prop :=
  (c.blk b).valid = true → (c.blk a).valid = true ∧ lastUse b < lastUse a

/-- The array is a permutation of the blocks of the set, invalid blocks are behind valid ones and
these in order of use, and no line is there twice. -/
structure Ordered (c : CacheSet assoc) (lastUse : Fin assoc → ℕ) : Prop where
  complete : c.Complete
  pairwise : c.blks.Pairwise (c.Before lastUse)
  unique : ∀ a b, (c.blk a).valid = true → (c.blk b).valid = true →
    (c.blk a).tag = (c.blk b).tag → (c.blk a).secure = (c.blk b).secure → a = b

/-- An invalid block of the set if there is one, and the least recently used one if not. -/
def IsVictim (c : CacheSet assoc) (lastUse : Fin assoc → ℕ) (b : Fin assoc) : Prop :=
  ((∃ a, (c.blk a).valid = false) → (c.blk b).valid = false) ∧
    ((∀ a, (c.blk a).valid = true) → ∀ a, a ≠ b → lastUse b < lastUse a)

/-- The last block of the array is the victim. -/
theorem Ordered.isVictim (h : c.Ordered lastUse) (hpos : 0 < assoc) :
    ∃ b, c.findVictim = .ok b ∧ c.IsVictim lastUse b := by
  obtain ⟨b, rest, hvictim, hblks⟩ := h.complete.findVictim hpos
  have hbefore : ∀ a, a ≠ b → c.Before lastUse a b := by
    intro a hab
    have hmem := h.complete.mem a
    have hpairwise := h.pairwise
    rw [hblks] at hmem hpairwise
    have ha := (List.mem_append.mp hmem).resolve_right (hab ∘ List.mem_singleton.mp)
    exact (List.pairwise_append.mp hpairwise).2.2 a ha b List.mem_cons_self
  refine ⟨b, hvictim, ?_, ?_⟩
  · rintro ⟨a, ha⟩
    by_contra hb
    rw [Bool.not_eq_false] at hb
    have hab : a ≠ b := by
      rintro rfl
      rw [ha] at hb
      cases hb
    have := (hbefore a hab hb).1
    rw [ha] at this
    cases this
  · intro hvalid a hab
    exact (hbefore a hab (hvalid b)).2

/-- The invariant of a set: no use is later than now, and an invalid block is not secure. -/
structure Sound (c : CacheSet assoc) (lastUse : Fin assoc → ℕ) (now : ℕ) : Prop where
  ordered : c.Ordered lastUse
  lastUse_le : ∀ b, lastUse b ≤ now
  secure_of_invalid : ∀ b, (c.blk b).valid = false → (c.blk b).secure = false

namespace Sound

section

variable (h : c.Sound lastUse now)

include h

theorem complete : c.Complete := h.ordered.complete

theorem later : c.Sound lastUse (now + 1) :=
  ⟨h.ordered, fun b => (h.lastUse_le b).trans now.le_succ, h.secure_of_invalid⟩

/-- A block comes to the head that is valid then and the only one that may have changed. -/
theorem use {b : Fin assoc} {x : CacheBlk} (hvalid : x.valid = true)
    (hnew : ∀ a, a ≠ b → (c.blk a).valid = true → (c.blk a).tag = x.tag →
      (c.blk a).secure ≠ x.secure) :
    Sound { blks := b :: c.blks.erase b, blk := update c.blk b x }
      (update lastUse b (now + 1)) (now + 1) := by
  refine ⟨⟨h.complete.perm_head b, ?_, ?_⟩, ?_, ?_⟩
  · apply pairwise_head h.ordered.pairwise h.complete.nodup
    · intro a a' ha ha' hbefore
      simp only [Before, update_of_ne ha, update_of_ne ha']
      exact hbefore
    · intro a ha _
      simp only [update_of_ne ha, update_self]
      exact ⟨hvalid, Nat.lt_succ_of_le (h.lastUse_le a)⟩
  · intro a a' hva hva' htag hsecure
    by_contra hne
    rcases eq_or_ne a b with rfl | ha
    · simp only [update_self, update_of_ne (Ne.symm hne)] at hva' htag hsecure
      exact hnew a' (Ne.symm hne) hva' htag.symm hsecure.symm
    · rcases eq_or_ne a' b with rfl | ha'
      · simp only [update_self, update_of_ne ha] at hva htag hsecure
        exact hnew a ha hva htag hsecure
      · simp only [update_of_ne ha, update_of_ne ha'] at hva hva' htag hsecure
        exact hne (h.ordered.unique a a' hva hva' htag hsecure)
  · intro a
    rcases eq_or_ne a b with rfl | ha
    · rw [update_self]
    · rw [update_of_ne ha]
      exact (h.lastUse_le a).trans now.le_succ
  · intro a
    rcases eq_or_ne a b with rfl | ha
    · simp only [update_self, hvalid]
      intro hfalse
      cases hfalse
    · simp only [update_of_ne ha]
      exact h.secure_of_invalid a

theorem access {tag : BitVec 64} {isSecure : Bool} {b : Fin assoc}
    (hfind : c.findBlk tag isSecure = some b) :
    Sound { c with blks := b :: c.blks.erase b } (update lastUse b (now + 1))
      (now + 1) := by
  have hhit := findBlk_some hfind
  rw [CacheBlk.hits, Bool.and_eq_true, Bool.and_eq_true] at hhit
  have huse := h.use (b := b) (x := c.blk b) hhit.1.2 ?_
  · rwa [update_eq_self] at huse
  · intro a hab hvalid htag hsecure
    exact hab (h.ordered.unique a b hvalid hhit.1.2 htag hsecure)

/-- A block that is not valid has nothing to clear. -/
theorem cleared (b : Fin assoc) :
    (if (c.blk b).valid then c.setBlk b CacheBlk.invalidate else c) =
      c.setBlk b CacheBlk.invalidate := by
  split
  · rfl
  · rename_i hvalid
    rw [Bool.not_eq_true] at hvalid
    have hsame : (c.blk b).invalidate = c.blk b := by
      rw [CacheBlk.invalidate, ← hvalid]
      nth_rewrite 2 [hvalid]
      rw [← h.secure_of_invalid b hvalid]
    rw [setBlk, hsame, update_eq_self]

theorem fill {tag : BitVec 64} {isSecure : Bool} (b : Fin assoc)
    (hmiss : c.findBlk tag isSecure = none) :
    ∃ c', c.insertBlock tag b = .ok c' ∧
      (c'.setBlk b (·.markValid isSecure)).Sound (update lastUse b (now + 1))
        (now + 1) := by
  have hinsert : c.insertBlock tag b = .ok
      { (c.setBlk b CacheBlk.invalidate).setBlk b fun x => { x with tag } with
        blks := b :: c.blks.erase b } := by
    rw [insertBlock, h.cleared]
    exact ((h.complete.setBlk b _).setBlk b _).moveToHead b
  refine ⟨_, hinsert, ?_⟩
  have huse := h.use (b := b) (x := { tag, valid := true, secure := isSecure }) rfl ?_
  · simpa [setBlk, CacheBlk.markValid, CacheBlk.invalidate] using huse
  · intro a _ hvalid htag hsecure
    apply findBlk_none h.complete hmiss a
    simp only [CacheBlk.hits, hvalid, htag, hsecure, beq_self_eq_true, Bool.and_self]

/-- A valid block goes to the tail and is invalid then. -/
theorem invalidate {b : Fin assoc} (hb : (c.blk b).valid = true) :
    ∃ c', c.invalidate b = .ok c' ∧ (c'.setBlk b CacheBlk.invalidate).Sound lastUse now := by
  refine ⟨{ c with blks := c.blks.erase b ++ [b] }, ?_, ?_⟩
  · rw [CacheSet.invalidate, if_pos hb]
    exact h.complete.moveToTail b
  · refine ⟨⟨h.complete.perm_tail b, ?_, ?_⟩, h.lastUse_le, ?_⟩
    · apply pairwise_tail h.ordered.pairwise h.complete.nodup
      · intro a a' ha ha' hbefore
        simp only [Before, setBlk, update_of_ne ha, update_of_ne ha']
        exact hbefore
      · intro a ha hvalid
        simp [setBlk, CacheBlk.invalidate] at hvalid
    · intro a a' hva hva' htag hsecure
      have hne : ∀ d, (update c.blk b (c.blk b).invalidate d).valid = true → d ≠ b := by
        rintro d hd rfl
        simp [CacheBlk.invalidate] at hd
      have ha := hne a hva
      have ha' := hne a' hva'
      simp only [setBlk, update_of_ne ha, update_of_ne ha'] at hva hva' htag hsecure
      exact h.ordered.unique a a' hva hva' htag hsecure
    · intro a hvalid
      rcases eq_or_ne a b with rfl | ha
      · simp [setBlk, CacheBlk.invalidate]
      · simp only [setBlk, update_of_ne ha] at hvalid ⊢
        exact h.secure_of_invalid a hvalid

end

end Sound

end Order

end CacheSet

/-- The geometry; the number of sets and the size of a block are powers of two. -/
structure LruParams where
  assoc : ℕ
  assoc_pos : 0 < assoc
  blkBits : ℕ
  setBits : ℕ

namespace LruParams

def extractTag (p : LruParams) (addr : BitVec 64) : BitVec 64 := addr >>> (p.blkBits + p.setBits)

def extractSet (p : LruParams) (addr : BitVec 64) : ℕ :=
  (addr >>> p.blkBits &&& BitVec.ofNat 64 (2 ^ p.setBits - 1)).toNat

end LruParams

/-- What the cache does with its tags. -/
inductive LruOp (assoc : ℕ)
  | access (addr : BitVec 64) (isSecure : Bool)
  | fill (addr : BitVec 64) (isSecure : Bool)
  | invalidate (set : ℕ) (way : Fin assoc)

/-- The sets, and as a ghost the time of the last use of each block. -/
structure LruSystem (p : LruParams) where
  sets : ℕ → CacheSet p.assoc := fun _ => .initial
  lastUse : ℕ → Fin p.assoc → ℕ := fun _ _ => 0
  now : ℕ := 0

namespace LruSystem

variable {p : LruParams}

/-- A block of a set was used and the set is changed. -/
def use (s : LruSystem p) (i : ℕ) (b : Fin p.assoc) (c : CacheSet p.assoc) : LruSystem p where
  sets := Function.update s.sets i c
  lastUse := Function.update s.lastUse i (Function.update (s.lastUse i) b (s.now + 1))
  now := s.now + 1

def step (s : LruSystem p) : LruOp p.assoc → Except Abort (LruSystem p)
  | .access addr isSecure => do
    let i := p.extractSet addr
    match ← (s.sets i).accessBlock (p.extractTag addr) isSecure with
    | (none, _) => return s
    | (some b, c) => return s.use i b c
  | .fill addr isSecure => do
    let i := p.extractSet addr
    let b ← (s.sets i).findVictim
    let c ← (s.sets i).insertBlock (p.extractTag addr) b
    return s.use i b (c.setBlk b (·.markValid isSecure))
  | .invalidate i b => do
    let c ← (s.sets i).invalidate b
    return { s with sets := Function.update s.sets i (c.setBlk b CacheBlk.invalidate) }

/-- A fill is for an address that is not there, and only a valid block is invalidated. -/
def Allowed (s : LruSystem p) : LruOp p.assoc → Prop
  | .access _ _ => True
  | .fill addr isSecure => (s.sets (p.extractSet addr)).findBlk (p.extractTag addr) isSecure = none
  | .invalidate i b => ((s.sets i).blk b).valid = true

instance (s : LruSystem p) (op : LruOp p.assoc) : Decidable (s.Allowed op) := by
  unfold Allowed
  split <;> infer_instance

/-! ## Runs -/

/-- The invariant of all sets. -/
def Sound (s : LruSystem p) : Prop := ∀ i, (s.sets i).Sound (s.lastUse i) s.now

variable {s t : LruSystem p}

theorem sound_initial : Sound ({} : LruSystem p) := by
  intro i
  refine ⟨⟨List.Perm.refl _, ?_, ?_⟩, fun b => le_rfl, fun b _ => rfl⟩
  · apply List.pairwise_of_forall
    intro a b hb
    cases hb
  · intro a b ha
    cases ha

/-- One set is changed by a use of a block. -/
theorem Sound.use (h : s.Sound) {i : ℕ} {b : Fin p.assoc} {c : CacheSet p.assoc}
    (hc : c.Sound (update (s.lastUse i) b (s.now + 1)) (s.now + 1)) :
    (s.use i b c).Sound := by
  intro j
  rcases eq_or_ne j i with rfl | hj
  · show (update s.sets j c j).Sound (update s.lastUse j _ j) (s.now + 1)
    rw [update_self, update_self]
    exact hc
  · show (update s.sets i c j).Sound (update s.lastUse i _ j) (s.now + 1)
    rw [update_of_ne hj, update_of_ne hj]
    exact (h j).later

theorem Sound.step (h : s.Sound) {op : LruOp p.assoc} (hop : s.Allowed op) :
    ∃ t, s.step op = .ok t ∧ t.Sound := by
  match op with
  | .access addr isSecure =>
    rw [LruSystem.step, CacheSet.accessBlock]
    split
    · exact ⟨s, rfl, h⟩
    · rename_i b hfind
      rw [(h _).complete.moveToHead b]
      exact ⟨_, rfl, h.use ((h _).access hfind)⟩
  | .fill addr isSecure =>
    obtain ⟨b, rest, hvictim, -⟩ := (h (p.extractSet addr)).complete.findVictim p.assoc_pos
    obtain ⟨c, hc, hsound⟩ := (h (p.extractSet addr)).fill b hop
    refine ⟨_, ?_, h.use hsound⟩
    rw [LruSystem.step, hvictim]
    show ((s.sets (p.extractSet addr)).insertBlock (p.extractTag addr) b >>= _) = _
    rw [hc]
    rfl
  | .invalidate i b =>
    obtain ⟨c, hc, hsound⟩ := (h i).invalidate hop
    refine ⟨{ s with sets := update s.sets i (c.setBlk b CacheBlk.invalidate) }, ?_, ?_⟩
    · rw [LruSystem.step, hc]
      rfl
    · intro j
      rcases eq_or_ne j i with rfl | hj
      · show (update s.sets j _ j).Sound (s.lastUse j) s.now
        rw [update_self]
        exact hsound
      · show (update s.sets i _ j).Sound (s.lastUse j) s.now
        rw [update_of_ne hj]
        exact h j

/-- **LRU order**: in every run, every set has its blocks in order of use, with the invalid ones at
the end and no line twice, the victim is an invalid block or else the least recently used one, and
every operation of the cache returns. -/
theorem lru_order {ops : List (LruOp p.assoc)} (h : Runs (Within step Allowed) {} ops s) :
    (∀ i, (s.sets i).Ordered (s.lastUse i) ∧
      ∃ b, (s.sets i).findVictim = .ok b ∧ (s.sets i).IsVictim (s.lastUse i) b) ∧
      ∀ op, s.Allowed op → ∃ t, s.step op = .ok t := by
  have hs : s.Sound := by
    refine h.invariant_of_progress ?_ sound_initial
    intro s op hs hop
    exact hs.step hop
  constructor
  · intro i
    exact ⟨(hs i).ordered, (hs i).ordered.isVictim p.assoc_pos⟩
  · intro op hop
    obtain ⟨t, ht, -⟩ := hs.step hop
    exact ⟨t, ht⟩

end LruSystem

/-- Two ways, two sets and blocks of 64 bytes. -/
def smallLru : LruParams where
  assoc := 2
  assoc_pos := by decide
  blkBits := 6
  setBits := 1

namespace LruSystem

/-- The first of two lines is used again, so that a third one takes the place of the second. -/
theorem lru_order_two_ways :
    ∃ s : LruSystem smallLru, Runs (Within step Allowed) {}
        [.fill 0x000 false, .fill 0x080 true, .access 0x010 false, .fill 0x100 false] s ∧
      ((s.sets 0).findBlk 0 false).isSome ∧ (s.sets 0).findBlk 1 true = none ∧
      (s.sets 0).Ordered (s.lastUse 0) := by
  refine exists_runs_imp_of_execWithin (P := fun s =>
    ((s.sets 0).findBlk 0 false).isSome ∧ (s.sets 0).findBlk 1 true = none)
    (by decide +kernel) ?_
  intro s hrun hsets
  exact ⟨hsets.1, hsets.2, ((lru_order hrun).1 0).1⟩

end LruSystem

/-! ## What a set holds -/

/-- Erasing from one more than is taken. -/
theorem take_erase_take {α : Type} [BEq α] (x : α) (l : List α) :
    ∀ n, ((l.take (n + 1)).erase x).take n = (l.erase x).take n := by
  induction l with
  | nil => exact fun n => rfl
  | cons a l ih =>
    intro n
    rw [List.take_succ_cons, List.erase_cons, List.erase_cons]
    split
    · rw [List.take_take, min_self]
    · cases n with
      | zero => rfl
      | succ n => rw [List.take_succ_cons, List.take_succ_cons, ih]

/-- The different elements of a list in the order of their last occurrence, latest first. -/
def latestFirst {α : Type} [BEq α] (xs : List α) : List α := xs.foldl (fun l x => x :: l.erase x) []

theorem latestFirst_concat {α : Type} [BEq α] (xs : List α) (y : α) :
    latestFirst (xs ++ [y]) = y :: (latestFirst xs).erase y := by
  rw [latestFirst, List.foldl_append]
  rfl

section latestFirst

variable {α : Type} [DecidableEq α] [BEq α] [LawfulBEq α] {x : α}

/-- Before an element come those that are there since. -/
theorem latestFirst_split (before : List α) (since : List α) : x ∉ since →
    ∃ l₁ l₂, latestFirst (before ++ x :: since) = l₁ ++ x :: l₂ ∧ l₁.Nodup ∧
      l₁.toFinset = since.toFinset := by
  induction since using List.reverseRecOn with
  | nil =>
    intro _
    exact ⟨[], _, latestFirst_concat before x, List.nodup_nil, rfl⟩
  | append_singleton since y ih =>
    intro hx
    simp only [List.mem_append, List.mem_singleton, not_or] at hx
    obtain ⟨l₁, l₂, hsplit, hnodup, hset⟩ := ih hx.1
    have hfin : (y :: l₁.erase y).toFinset = (since ++ [y]).toFinset := by
      ext z
      have hz := Finset.ext_iff.mp hset z
      simp only [List.mem_toFinset] at hz
      simp only [List.mem_toFinset, List.mem_cons, List.mem_append, List.not_mem_nil, or_false,
        hnodup.mem_erase_iff]
      tauto
    have hnodup' : (y :: l₁.erase y).Nodup :=
      List.nodup_cons.mpr ⟨hnodup.not_mem_erase, hnodup.erase y⟩
    rw [← List.cons_append, ← List.append_assoc, latestFirst_concat, hsplit]
    by_cases hy : y ∈ l₁
    · exact ⟨_, l₂, by rw [List.erase_append_left _ hy]; rfl, hnodup', hfin⟩
    · rw [List.erase_append_right _ hy, List.erase_cons_tail (by simpa using hx.2)]
      rw [List.erase_of_not_mem hy] at hnodup' hfin
      exact ⟨y :: l₁, l₂.erase y, rfl, hnodup', hfin⟩

omit [DecidableEq α] [LawfulBEq α] in
theorem mem_latestFirst (xs : List α) : x ∈ latestFirst xs → x ∈ xs := by
  induction xs using List.reverseRecOn with
  | nil => exact id
  | append_singleton xs y ih =>
    rw [latestFirst_concat]
    intro h
    rcases List.mem_cons.mp h with rfl | h
    · exact List.mem_append_right _ List.mem_cons_self
    · exact List.mem_append_left _ (ih (List.mem_of_mem_erase h))

/-- **Recency**: an element is among the first `k` exactly if fewer than `k` others are there since
its last occurrence. -/
theorem mem_take_latestFirst (xs : List α) (k : ℕ) : x ∈ (latestFirst xs).take k ↔
    ∃ before since, xs = before ++ x :: since ∧ x ∉ since ∧ since.toFinset.card < k := by
  have hcount : ∀ before since, x ∉ since →
      (x ∈ (latestFirst (before ++ x :: since)).take k ↔ since.toFinset.card < k) := by
    intro before since hx
    obtain ⟨l₁, l₂, hsplit, hnodup, hset⟩ := latestFirst_split before since hx
    have hx₁ : x ∉ l₁ := by
      rwa [← List.mem_toFinset, hset, List.mem_toFinset]
    rw [hsplit, ← hset, List.toFinset_card_of_nodup hnodup, List.take_append, List.mem_append]
    constructor
    · rintro (h | h)
      · exact absurd (List.mem_of_mem_take h) hx₁
      · by_contra hle
        rw [Nat.sub_eq_zero_of_le (not_lt.mp hle)] at h
        cases h
    · intro hlt
      obtain ⟨m, hm⟩ := Nat.exists_eq_succ_of_ne_zero (Nat.sub_pos_of_lt hlt).ne'
      rw [hm, List.take_succ_cons]
      exact .inr List.mem_cons_self
  constructor
  · intro h
    obtain ⟨as, bs, hrev, hx⟩ := List.eq_append_cons_of_mem
      (List.mem_reverse.mpr (mem_latestFirst xs (List.mem_of_mem_take h)))
    have hxs : xs = bs.reverse ++ x :: as.reverse := by
      rw [← List.reverse_reverse xs, hrev]
      simp
    rw [hxs] at h
    have hx : x ∉ as.reverse := fun hmem => hx (List.mem_reverse.mp hmem)
    exact ⟨_, _, hxs, hx, (hcount _ _ hx).mp h⟩
  · rintro ⟨before, since, rfl, hx, hlt⟩
    exact (hcount before since hx).mpr hlt

end latestFirst

namespace CacheSet

variable {assoc now : ℕ} {c : CacheSet assoc} {lastUse : Fin assoc → ℕ} {b : Fin assoc}
  {x : BitVec 64 × Bool}

/-- The line of a block. -/
def line (c : CacheSet assoc) (b : Fin assoc) : Option (BitVec 64 × Bool) :=
  if (c.blk b).valid then some ((c.blk b).tag, (c.blk b).secure) else none

/-- The lines of a set, in the order of the array. -/
def lines (c : CacheSet assoc) : List (BitVec 64 × Bool) := c.blks.filterMap c.line

/-- A request, and if it misses the fill that follows. -/
def demand (c : CacheSet assoc) (x : BitVec 64 × Bool) : Except Abort (CacheSet assoc) := do
  match ← c.accessBlock x.1 x.2 with
  | (some _, c) => return c
  | (none, c) =>
    let b ← c.findVictim
    let c ← c.insertBlock x.1 b
    return c.setBlk b (·.markValid x.2)

theorem line_eq_some : c.line b = some x ↔ (c.blk b).valid = true ∧
    (c.blk b).tag = x.1 ∧ (c.blk b).secure = x.2 := by
  simp [line, Prod.ext_iff]

theorem findBlk_isSome : (c.findBlk x.1 x.2).isSome ↔ x ∈ c.lines := by
  simp [findBlk, lines, line_eq_some, CacheBlk.hits, and_assoc, and_left_comm]

namespace Sound

variable (h : c.Sound lastUse now)

include h

/-- A block comes to the head.  It had the line before, or it was the last one. -/
theorem lines_use {pre post : List (Fin assoc)} (hblks : c.blks = pre ++ b :: post)
    (hx : c.line b = some x ∨ x ∉ c.lines ∧ post = []) :
    lines { blks := b :: c.blks.erase b, blk := update c.blk b ⟨x.1, true, x.2⟩ } =
      (x :: c.lines.erase x).take assoc := by
  have hlen := List.perm_middle.length_eq.symm.trans (hblks ▸ h.complete.length_eq)
  have hnot := (List.nodup_cons.mp (List.nodup_middle.mp (hblks ▸ h.complete.nodup))).1
  have hpre : b ∉ pre := fun hb => hnot (List.mem_append_left _ hb)
  have hle := List.length_filterMap_le c.line (pre ++ post)
  rw [lines, hblks, List.erase_append_right _ hpre, List.erase_cons_head,
    List.filterMap_cons_some (b := x) (by simp [line]), congrArg (List.take · _) hlen.symm,
    List.length_cons, List.take_succ_cons]
  congr 1
  -- the other blocks keep their lines
  trans (pre ++ post).filterMap c.line
  · apply List.filterMap_congr
    intro a ha
    have hab : a ≠ b := fun hab => hnot (hab ▸ ha)
    simp only [line, update_of_ne hab]
  rw [lines, hblks] at hx ⊢
  rcases hx with hb | ⟨hx, rfl⟩
  · have hx : x ∉ pre.filterMap c.line := by
      intro hmem
      obtain ⟨a, ha, hax⟩ := List.mem_filterMap.mp hmem
      rw [line_eq_some] at hax hb
      exact hpre (h.ordered.unique a b hax.1 hb.1 (hax.2.1.trans hb.2.1.symm)
        (hax.2.2.trans hb.2.2.symm) ▸ ha)
    rw [List.filterMap_append, List.filterMap_append, List.filterMap_cons_some hb,
      List.erase_append_right _ hx, List.erase_cons_head, ← List.filterMap_append,
      List.take_of_length_le hle]
  · rw [List.append_nil] at hle
    rw [List.erase_of_not_mem hx, List.append_nil, List.filterMap_append]
    by_cases hvalid : (c.blk b).valid = true
    · -- the set is full
      have hall : pre.filterMap c.line = pre.map fun a => ((c.blk a).tag, (c.blk a).secure) := by
        rw [← List.filterMap_eq_map]
        apply List.filterMap_congr
        intro a ha
        have hpair := (List.pairwise_append.mp (hblks ▸ h.ordered.pairwise)).2.2
        exact if_pos (hpair a ha b List.mem_cons_self hvalid).1
      rw [hall, List.take_left' (List.length_map _)]
    · have hnone : c.line b = none := if_neg hvalid
      rw [List.filterMap_cons_none hnone, List.filterMap_nil, List.append_nil,
        List.take_of_length_le hle]

theorem demand (hpos : 0 < assoc) (x : BitVec 64 × Bool) :
    ∃ c' lastUse', c.demand x = .ok c' ∧ c'.Sound lastUse' (now + 1) ∧
      c'.lines = (x :: c.lines.erase x).take assoc := by
  rw [CacheSet.demand, accessBlock]
  cases hfind : c.findBlk x.1 x.2 with
  | some b =>
    obtain ⟨pre, post, hblks⟩ := List.append_of_mem (h.complete.mem b)
    have hhit := findBlk_some hfind
    simp only [CacheBlk.hits, Bool.and_eq_true, beq_iff_eq] at hhit
    have hblk : c.blk b = ⟨x.1, true, x.2⟩ := by rw [← hhit.1.1, ← hhit.1.2, ← hhit.2]
    have hlines := h.lines_use hblks (.inl (line_eq_some.mpr ⟨hhit.1.2, hhit.1.1, hhit.2⟩))
    rw [← hblk, update_eq_self] at hlines
    refine ⟨_, _, ?_, h.access hfind, hlines⟩
    simp only [bind, Except.bind, h.complete.moveToHead b]
    rfl
  | none =>
    obtain ⟨b, rest, hvictim, hblks⟩ := h.complete.findVictim hpos
    obtain ⟨c', hc', hsound⟩ := h.fill b hfind
    refine ⟨_, _, ?_, hsound, ?_⟩
    · simp only [bind, Except.bind, hvictim, hc']
      rfl
    · rw [insertBlock, h.cleared, ((h.complete.setBlk b _).setBlk b _).moveToHead b] at hc'
      cases hc'
      have hlines := h.lines_use (x := x) hblks
      simp [← findBlk_isSome, hfind] at hlines
      simpa [setBlk, CacheBlk.markValid, CacheBlk.invalidate] using hlines

end Sound

theorem foldlM_demand (n : ℕ) (xs : List (BitVec 64 × Bool)) :
    ∃ c : CacheSet (n + 1), xs.foldlM demand .initial = .ok c ∧
      c.lines = (latestFirst xs).take (n + 1) := by
  suffices h : ∀ (c : CacheSet (n + 1)) l lastUse now, c.Sound lastUse now →
      c.lines = l.take (n + 1) → ∃ c', xs.foldlM demand c = .ok c' ∧
        c'.lines = (xs.foldl (fun l x => x :: l.erase x) l).take (n + 1) by
    have hsound := LruSystem.sound_initial (p := ⟨n + 1, n.succ_pos, 0, 0⟩) 0
    exact h .initial [] _ _ hsound (List.filterMap_eq_nil_iff.mpr fun _ _ => rfl)
  induction xs with
  | nil => exact fun c l _ _ _ hl => ⟨c, rfl, hl⟩
  | cons x xs ih =>
    intro c l lastUse now h hl
    obtain ⟨c', _, hc', h', hl'⟩ := h.demand n.succ_pos x
    rw [List.foldlM_cons, hc']
    apply ih c' _ _ _ h'
    rw [hl', hl, List.take_succ_cons, List.take_succ_cons, take_erase_take]

/-- **LRU stack**: after any requests, a set holds the lines last requested, as many of them as
it has ways, and these are what hits.  So a line hits if no more other lines than that were
requested since, and with more ways no hit is lost. -/
theorem lines_after_demands (n : ℕ) (xs : List (BitVec 64 × Bool)) :
    ∃ c : CacheSet (n + 1), xs.foldlM demand .initial = .ok c ∧
      c.lines = (xs.foldl (fun l x => x :: l.erase x) []).take (n + 1) ∧
      (∀ x, (c.findBlk x.1 x.2).isSome ↔ x ∈ c.lines) ∧
      (∀ x, (c.findBlk x.1 x.2).isSome ↔ ∃ before since, xs = before ++ x :: since ∧ x ∉ since ∧
        since.toFinset.card < n + 1) ∧
      ∀ m ≥ n, ∃ c' : CacheSet (m + 1), xs.foldlM demand .initial = .ok c' ∧
        ∀ x : BitVec 64 × Bool, (c.findBlk x.1 x.2).isSome → (c'.findBlk x.1 x.2).isSome := by
  obtain ⟨c, hc, hlines⟩ := foldlM_demand n xs
  refine ⟨c, hc, hlines, fun x => findBlk_isSome, fun x => ?_, fun m hm => ?_⟩
  · rw [findBlk_isSome, hlines]
    exact mem_take_latestFirst xs (n + 1)
  · obtain ⟨c', hc', hlines'⟩ := foldlM_demand m xs
    refine ⟨c', hc', fun x hx => ?_⟩
    rw [findBlk_isSome, hlines] at hx
    rw [findBlk_isSome, hlines']
    exact List.take_subset_take_left _ (Nat.succ_le_succ hm) hx

end CacheSet
