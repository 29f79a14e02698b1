/-
# The tag array of a cache

`CacheMemory` (`src/mem/ruby/structures/CacheMemory.cc`) keeps the entries of a
cache in an array of sets and ways and, beside it, the map `m_tag_index` from
an address to its way.  `findTagInSet` reads the map only, so the two have to
agree.

`allocate` takes the first way that is null or whose entry is `NotPresent`, and
overwrites what it finds there without erasing the old tag.  An entry becomes
`NotPresent` by a permission change, not by `deallocate`, so its address is
still indexed when the way is reused.  `CacheMemory.KeepsTags` is the condition
under which an allocation leaves map and array in agreement.

The replacement policy, the banked arrays and the statistics are left out: none
of them touches the array or the map.
-/
import Mathlib
import Gem5.SliccTypes
import Gem5.TransitionSystem

open Function

/-! ## Addresses -/

/-- A physical address (`ADDRESS_WIDTH` is 64). -/
abbrev Address := BitVec 64

namespace Address

/-- `bitSelect(small, big)`: the bits from `small` to `big`, inclusive. -/
def bitSelect (a : Address) (small big : ℕ) : Address :=
  if 63 ≤ big then a >>> small
  else (a &&& ~~~(BitVec.allOnes 64 <<< (big + 1))) >>> small

def maskLowOrderBits (a : Address) (number : ℕ) : Address :=
  a &&& if 63 ≤ number then BitVec.allOnes 64 else BitVec.allOnes 64 <<< number

/-- The number of a bit field is below the power of its width. -/
theorem toNat_bitSelect_lt (a : Address) (small : ℕ) {bits : ℕ} (h : 0 < bits) :
    (a.bitSelect small (small + bits - 1)).toNat < 2 ^ bits := by
  apply Nat.lt_pow_two_of_testBit
  intro i hi
  rw [← BitVec.getLsbD]
  unfold bitSelect
  split
  · rw [BitVec.getLsbD_ushiftRight]
    exact BitVec.getLsbD_of_ge _ _ (by omega)
  · rw [BitVec.getLsbD_ushiftRight, BitVec.getLsbD_and, BitVec.getLsbD_not,
      BitVec.getLsbD_shiftLeft, BitVec.getLsbD_allOnes]
    by_cases hlt : small + i < 64
    · have h1 : ¬ small + i < small + bits - 1 + 1 := by omega
      have h2 : small + i - (small + bits - 1 + 1) < 64 := by omega
      simp [hlt, h1, h2]
    · simp [hlt]

end Address

/-! ## Geometry -/

/-- The parameters of a cache after `init`, with the assertion made there. -/
structure CacheParams where
  blockSizeBits : ℕ
  startIndexBit : ℕ
  numSets : ℕ
  assoc : ℕ
  one_lt_numSets : 1 < numSets

namespace CacheParams

variable (g : CacheParams)

/-- `m_cache_num_set_bits`, the `floorLog2` of the number of sets. -/
def numSetBits : ℕ := g.numSets.log2

/-- `address == line_address(address)`. -/
def IsLine (a : Address) : Prop := a = a.maskLowOrderBits g.blockSizeBits

instance (a : Address) : Decidable (g.IsLine a) :=
  inferInstanceAs (Decidable (a = a.maskLowOrderBits g.blockSizeBits))

theorem numSetBits_pos : 0 < g.numSetBits := by
  have := g.one_lt_numSets
  exact (Nat.le_log2 (by omega)).mpr (by omega)

/-- `addressToCacheSet`, without its assertion; the callers make it first. -/
def addressToCacheSet (a : Address) : Fin g.numSets :=
  ⟨(a.bitSelect g.startIndexBit (g.startIndexBit + g.numSetBits - 1)).toNat,
    (a.toNat_bitSelect_lt g.startIndexBit g.numSetBits_pos).trans_le
      (Nat.log2_self_le (by have := g.one_lt_numSets; omega))⟩

end CacheParams

/-! ## The array and the index -/

/-- `AbstractCacheEntry`, with the fields of the protocol's own entry in `data`.  `locked` is
`m_locked`, where -1 is `none`. -/
structure CacheEntry (α : Type) where
  address : Address
  permission : AccessPermission := .NotPresent
  locked : Option ℕ := none
  data : α
  deriving DecidableEq

/-- `AbstractCacheEntry::changePermission`. -/
def CacheEntry.changePermission {α : Type} (e : CacheEntry α) (perm : AccessPermission) :
    CacheEntry α :=
  { e with
    permission := perm
    locked := if perm = .Invalid ∨ perm = .NotPresent then none else e.locked }

/-- `m_cache` and `m_tag_index`. -/
structure CacheMemory (g : CacheParams) (α : Type) where
  cache : Fin g.numSets → Fin g.assoc → Option (CacheEntry α) := fun _ _ => none
  tagIndex : Address → Option (Fin g.assoc) := fun _ => none

namespace CacheMemory

variable {g : CacheParams} {α : Type}

variable (c : CacheMemory g α)

variable (a : Address)

/-- `findTagInSet(addressToCacheSet(a), a)`.  An indexed way that holds no entry is dereferenced
all the same. -/
def findTag : Except Abort (Option (Fin g.assoc)) :=
  if g.IsLine a then
    match c.tagIndex a with
    | none => .ok none
    | some w =>
      match c.cache (g.addressToCacheSet a) w with
      | none => .error .undefined
      | some e => .ok (if e.permission = .NotPresent then none else some w)
  else .error .assertion

def isTagPresent : Except Abort Bool := do
  let loc ← c.findTag a
  pure loc.isSome

def lookup : Except Abort (Option (CacheEntry α)) := do
  let loc ← c.findTag a
  pure (loc.bind (c.cache (g.addressToCacheSet a)))

def cacheAvail : Except Abort Bool :=
  if g.IsLine a then
    .ok ((List.finRange g.assoc).any fun i =>
      match c.cache (g.addressToCacheSet a) i with
      | none => true
      | some e => e.address == a || e.permission == .NotPresent)
  else .error .assertion

/-- The first open slot of the loop in `allocate`. -/
def freeWay : Option (Fin g.assoc) :=
  (List.finRange g.assoc).find? fun i =>
    match c.cache (g.addressToCacheSet a) i with
    | none => true
    | some e => e.permission == .NotPresent

/-- Write a way of a set. -/
def setWay (s : Fin g.numSets) (w : Fin g.assoc)
    (e : Option (CacheEntry α)) : CacheMemory g α :=
  { c with cache := Function.update c.cache s (Function.update (c.cache s) w e) }

def allocate (entry : α) :
    Except Abort (CacheMemory g α) := do
  let present ← c.isTagPresent a
  let avail ← c.cacheAvail a
  if present || !avail then .error .assertion
  else
    match c.freeWay a with
    | none => .error .assertion
    | some i =>
      .ok { c.setWay (g.addressToCacheSet a) i
          (some { address := a, permission := .Invalid, locked := none, data := entry }) with
        tagIndex := Function.update c.tagIndex a (some i) }

def deallocate : Except Abort (CacheMemory g α) := do
  let loc ← c.findTag a
  match loc with
  | none => .error .assertion
  | some w =>
    .ok { c.setWay (g.addressToCacheSet a) w none with
      tagIndex := Function.update c.tagIndex a none }

/-- Change the entry a pointer to a resident entry leads to. -/
def modifyEntry (s : Fin g.numSets) (w : Fin g.assoc)
    (f : CacheEntry α → CacheEntry α) : Except Abort (CacheMemory g α) :=
  match c.cache s w with
  | none => .error .undefined
  | some e => .ok (c.setWay s w (some (f e)))

/-- The entry at the tag, for the calls that assert it is there. -/
def modifyTag (f : CacheEntry α → CacheEntry α) :
    Except Abort (CacheMemory g α) := do
  let loc ← c.findTag a
  match loc with
  | none => .error .assertion
  | some w => c.modifyEntry (g.addressToCacheSet a) w f

def setLocked (context : ℕ) : Except Abort (CacheMemory g α) :=
  c.modifyTag a fun e => { e with locked := some context }

def clearLocked : Except Abort (CacheMemory g α) :=
  c.modifyTag a fun e => { e with locked := none }

def isLocked (context : ℕ) : Except Abort Bool := do
  let loc ← c.findTag a
  match loc with
  | none => .error .assertion
  | some w =>
    match c.cache (g.addressToCacheSet a) w with
    | none => .error .undefined
    | some e => .ok (e.locked == some context)

end CacheMemory

/-- The mutators of a cache, and the permission changes of its resident entries. -/
inductive CacheOp (g : CacheParams) (α : Type)
  | allocate (a : Address) (entry : α)
  | deallocate (a : Address)
  | changePermission (s : Fin g.numSets) (w : Fin g.assoc) (perm : AccessPermission)
  | setLocked (a : Address) (context : ℕ)
  | clearLocked (a : Address)

namespace CacheMemory

variable {g : CacheParams} {α : Type}

variable (c : CacheMemory g α)

def step : CacheOp g α → Except Abort (CacheMemory g α)
  | .allocate a entry => c.allocate a entry
  | .deallocate a => c.deallocate a
  | .changePermission s w perm => c.modifyEntry s w fun e => e.changePermission perm
  | .setLocked a context => c.setLocked a context
  | .clearLocked a => c.clearLocked a

/-- Map and array agree: an address is indexed at exactly the way of its set that holds it. -/
def Indexed : Prop :=
  ∀ a w, c.tagIndex a = some w ↔ ∃ e, c.cache (g.addressToCacheSet a) w = some e ∧ e.address = a

/-- **The tags agree**, with what follows for the users of the cache: a lookup returns an entry of
the address looked up, and no address is in two places. -/
structure TagsAgree (c : CacheMemory g α) : Prop where
  indexed : c.Indexed
  lookup : ∀ a e, c.lookup a = .ok (some e) → e.address = a
  one_way : ∀ s w e s' w' e', c.cache s w = some e → c.cache s' w' = some e' →
    e.address = e'.address → s = s' ∧ w = w'

/-- An allocation takes the way of the address's own old entry if there is one, and a way without
an entry otherwise. -/
def KeepsTags : CacheOp g α → Prop
  | .allocate a _ => ∀ i ∈ c.freeWay a, ∀ w e, c.cache (g.addressToCacheSet a) w = some e →
    (w = i ↔ e.address = a)
  | _ => True

/-! ## Placement -/

/-- Every entry is in the set of its address. -/
def Placed : Prop :=
  ∀ s w e, c.cache s w = some e → g.addressToCacheSet e.address = s

variable {c c' : CacheMemory g α}

theorem cache_setWay (s : Fin g.numSets) (w : Fin g.assoc) (v : Option (CacheEntry α))
    (s' : Fin g.numSets) (w' : Fin g.assoc) :
    (c.setWay s w v).cache s' w' = if s' = s ∧ w' = w then v else c.cache s' w' := by
  unfold setWay
  rcases eq_or_ne s' s with rfl | hs
  · rcases eq_or_ne w' w with rfl | hw
    · simp
    · simp [hw]
  · simp [hs]

variable {s : Fin g.numSets} {w : Fin g.assoc} {a : Address} {op : CacheOp g α}

theorem Placed.setWay (h : c.Placed) {v : Option (CacheEntry α)}
    (hv : ∀ e ∈ v, g.addressToCacheSet e.address = s) :
    (c.setWay s w v).Placed := by
  intro s' w' e he
  rw [cache_setWay] at he
  split at he
  · rename_i hsw
    rw [hsw.1]
    exact hv e he
  · exact h s' w' e he

/-- A way that `findTag` returns is the indexed one, and holds an entry that is present. -/
theorem findTag_eq_some (h : c.findTag a = .ok (some w)) :
    c.tagIndex a = some w ∧
      ∃ e, c.cache (g.addressToCacheSet a) w = some e ∧ e.permission ≠ .NotPresent := by
  unfold findTag at h
  split at h
  · split at h
    · cases h
    · rename_i w' hw'
      split at h
      · cases h
      · rename_i e he
        have h := Except.ok.inj h
        split at h
        · cases h
        · rename_i hperm
          cases h
          exact ⟨hw', e, he, hperm⟩
  · cases h

/-- Agreement and placement give the consequences. -/
theorem Indexed.tagsAgree (h : c.Indexed) (hp : c.Placed) : c.TagsAgree where
  indexed := h
  lookup := by
    intro a e he
    obtain ⟨loc, hloc, he⟩ := Except.bind_eq_ok he
    have he := Except.ok.inj he
    obtain rfl | ⟨w, rfl⟩ := loc.eq_none_or_eq_some
    · cases he
    · obtain ⟨e', he', ha⟩ := (h a w).mp (findTag_eq_some hloc).1
      rw [Option.bind_some, he'] at he
      rw [← Option.some.inj he]
      exact ha
  one_way := by
    intro s w e s' w' e' he he' ha
    have hs : s = s' := by rw [← hp s w e he, ← hp s' w' e' he', ha]
    subst hs
    refine ⟨rfl, ?_⟩
    -- both ways are the one where the address is indexed
    have hw : c.tagIndex e.address = some w := (h _ w).mpr ⟨e, by rwa [hp s w e he], rfl⟩
    have hw' : c.tagIndex e.address = some w' :=
      (h _ w').mpr ⟨e', by rwa [hp s w e he], ha.symm⟩
    rw [hw] at hw'
    exact Option.some.inj hw'

/-! ## One step -/

/-- What a successful allocation did. -/
theorem allocate_eq_ok {entry : α} (h : c.allocate a entry = .ok c') :
    ∃ i, c.freeWay a = some i ∧
      c' = { c.setWay (g.addressToCacheSet a) i (some ⟨a, .Invalid, none, entry⟩) with
        tagIndex := update c.tagIndex a (some i) } := by
  obtain ⟨present, -, h⟩ := Except.bind_eq_ok h
  obtain ⟨avail, -, h⟩ := Except.bind_eq_ok h
  split at h
  · cases h
  · split at h
    · cases h
    · rename_i i hi
      exact ⟨i, hi, (Except.ok.inj h).symm⟩

theorem deallocate_eq_ok (h : c.deallocate a = .ok c') :
    ∃ w, c.findTag a = .ok (some w) ∧
      c' = { c.setWay (g.addressToCacheSet a) w none with
        tagIndex := update c.tagIndex a none } := by
  obtain ⟨loc, hloc, h⟩ := Except.bind_eq_ok h
  split at h
  · cases h
  · exact ⟨_, hloc, (Except.ok.inj h).symm⟩

theorem modifyEntry_eq_ok {f : CacheEntry α → CacheEntry α}
    (h : c.modifyEntry s w f = .ok c') :
    ∃ e, c.cache s w = some e ∧ c' = c.setWay s w (some (f e)) := by
  unfold modifyEntry at h
  split at h
  · cases h
  · rename_i e he
    exact ⟨e, he, (Except.ok.inj h).symm⟩

/-- Every call but an allocation and a deallocation changes a resident entry and keeps its
address, and no condition is made on it. -/
theorem step_eq_ok (h : c.step op = .ok c') :
    (∃ a entry, op = .allocate a entry) ∨ (∃ a, op = .deallocate a) ∨
      c.KeepsTags op ∧ ∃ s w e e', c.cache s w = some e ∧ e'.address = e.address ∧
        c' = c.setWay s w (some e') := by
  have htag : ∀ {a : Address} {f : CacheEntry α → CacheEntry α}, c.modifyTag a f = .ok c' →
      (∀ e, (f e).address = e.address) → ∃ s w e e', c.cache s w = some e ∧
        e'.address = e.address ∧ c' = c.setWay s w (some e') := by
    intro a f h hf
    obtain ⟨loc, -, h⟩ := Except.bind_eq_ok h
    split at h
    · cases h
    · obtain ⟨e, he, rfl⟩ := modifyEntry_eq_ok h
      exact ⟨_, _, e, f e, he, hf e, rfl⟩
  cases op with
  | allocate a entry => exact .inl ⟨a, entry, rfl⟩
  | deallocate a => exact .inr (.inl ⟨a, rfl⟩)
  | changePermission s w perm =>
    obtain ⟨e, he, rfl⟩ := modifyEntry_eq_ok h
    exact .inr (.inr ⟨trivial, s, w, e, e.changePermission perm, he, rfl, rfl⟩)
  | setLocked a context => exact .inr (.inr ⟨trivial, htag h fun _ => rfl⟩)
  | clearLocked a => exact .inr (.inr ⟨trivial, htag h fun _ => rfl⟩)

theorem Placed.step (hp : c.Placed) (h : c.step op = .ok c') : c'.Placed := by
  rcases step_eq_ok h with ⟨a, entry, rfl⟩ | ⟨a, rfl⟩ | ⟨-, s, w, e, e', he, hea, rfl⟩
  · obtain ⟨i, -, rfl⟩ := allocate_eq_ok h
    refine hp.setWay (v := some _) ?_
    rintro e he
    cases he
    rfl
  · obtain ⟨w, -, rfl⟩ := deallocate_eq_ok h
    refine hp.setWay (v := none) ?_
    rintro e he
    cases he
  · refine hp.setWay ?_
    rintro e'' he'
    cases he'
    rw [hea]
    exact hp s w e he

/-! ## Which steps keep the tags -/

theorem Indexed.deallocate (hi : c.Indexed) (h : c.deallocate a = .ok c') :
    c'.Indexed := by
  obtain ⟨w, hw, rfl⟩ := deallocate_eq_ok h
  have hindex := (findTag_eq_some hw).1
  obtain ⟨e, he, ha⟩ := (hi a w).mp hindex
  intro b v
  show update c.tagIndex a none b = some v ↔
    ∃ e, (c.setWay _ w none).cache (g.addressToCacheSet b) v = some e ∧ e.address = b
  rw [cache_setWay]
  by_cases hb : b = a
  · -- the only entry of the address is gone
    subst hb
    refine iff_of_false (by simp) ?_
    rintro ⟨e', he', ha'⟩
    split at he'
    · cases he'
    · rename_i hne
      have hv := (hi b v).mpr ⟨e', he', ha'⟩
      rw [hindex] at hv
      exact hne ⟨rfl, (Option.some.inj hv).symm⟩
  · rw [update_of_ne hb, hi b v]
    split
    · -- the way that is cleared held the address, not another one
      rename_i hsw
      rw [hsw.1, hsw.2, he]
      refine iff_of_false ?_ (by simp)
      rintro ⟨e', he', ha'⟩
      cases he'
      exact hb (ha'.symm.trans ha)
    · rfl

theorem Indexed.modify (hi : c.Indexed) {e e' : CacheEntry α} (he : c.cache s w = some e)
    (ha : e'.address = e.address) :
    (c.setWay s w (some e')).Indexed := by
  intro b v
  show c.tagIndex b = some v ↔ _
  rw [cache_setWay, hi b v]
  split
  · rename_i hsw
    rw [hsw.1, hsw.2, he]
    constructor
    · rintro ⟨e'', he'', hb⟩
      cases he''
      exact ⟨e', rfl, ha.trans hb⟩
    · rintro ⟨e'', he'', hb⟩
      cases he''
      exact ⟨e, rfl, ha.symm.trans hb⟩
  · rfl

/-- An allocation keeps the agreement exactly if it overwrites no other address and leaves no
second entry of its own. -/
theorem indexed_allocate_iff (hi : c.Indexed) (hp : c.Placed) {entry : α}
    (h : c.allocate a entry = .ok c') : c'.Indexed ↔ c.KeepsTags (.allocate a entry) := by
  obtain ⟨i, hfree, rfl⟩ := allocate_eq_ok h
  constructor
  · intro hi' j hj w e he
    rw [hfree] at hj
    cases hj
    constructor
    · -- the address that was in the way is still indexed there
      rintro rfl
      by_contra hne
      have hold : c.tagIndex e.address = some w :=
        (hi _ w).mpr ⟨e, by rwa [hp _ w e he], rfl⟩
      have hnew : update c.tagIndex a (some w) e.address = some w := by
        rw [update_of_ne hne]
        exact hold
      obtain ⟨e', he', ha'⟩ := (hi' e.address w).mp hnew
      rw [cache_setWay, hp _ w e he, if_pos ⟨rfl, rfl⟩] at he'
      cases he'
      exact hne ha'.symm
    · intro ha
      by_contra hne
      have hw : update c.tagIndex a (some i) a = some w := by
        refine (hi' a w).mpr ⟨e, ?_, ha⟩
        show (c.setWay _ i _).cache (g.addressToCacheSet a) w = some e
        rw [cache_setWay, if_neg fun hx => hne hx.2]
        exact he
      rw [update_self] at hw
      exact hne (Option.some.inj hw).symm
  · intro hkeep b v
    have hkeep := hkeep i hfree
    show update c.tagIndex a (some i) b = some v ↔
      ∃ e, (c.setWay _ i _).cache (g.addressToCacheSet b) v = some e ∧ e.address = b
    rw [cache_setWay]
    rcases eq_or_ne b a with rfl | hb
    · rw [update_self]
      constructor
      · intro hv
        cases hv
        exact ⟨_, if_pos ⟨rfl, rfl⟩, rfl⟩
      · rintro ⟨e, he, ha⟩
        split at he
        · rename_i hsw
          rw [hsw.2]
        · rw [(hkeep v e he).mpr ha]
    · rw [update_of_ne hb, hi b v]
      split
      · -- the way held at most an old entry of the same address
        rename_i hsw
        refine iff_of_false ?_ ?_
        · rintro ⟨e, he, ha⟩
          rw [hsw.1] at he
          exact hb (ha.symm.trans ((hkeep v e he).mp hsw.2))
        · rintro ⟨e, he, ha⟩
          cases he
          exact hb ha.symm
      · rfl

theorem indexed_step_iff (hi : c.Indexed) (hp : c.Placed) (h : c.step op = .ok c') :
    c'.Indexed ↔ c.KeepsTags op := by
  rcases step_eq_ok h with ⟨a, entry, rfl⟩ | ⟨a, rfl⟩ | ⟨hkeep, s, w, e, e', he, hea, rfl⟩
  · exact indexed_allocate_iff hi hp h
  · exact iff_of_true (hi.deallocate h) trivial
  · exact iff_of_true (hi.modify he hea) hkeep

end CacheMemory

/-- **Tag index and array.**  The runs from an empty cache after each of whose calls the tags agree
are exactly those in which no allocation overwrites another address or leaves an old entry of its
own. -/
theorem tags_agree_iff_keepsTags (g : CacheParams) (α : Type) (ops : List (CacheOp g α))
    (c : CacheMemory g α) :
    Runs (fun c op c' => c.step op = .ok c' ∧ c'.TagsAgree) {} ops c ↔
      Runs (Within CacheMemory.step CacheMemory.KeepsTags) {} ops c := by
  refine Runs.congr_of_invariant (P := fun c => c.Indexed ∧ c.Placed) ?_ ?_ ?_
  · rintro c op c' ⟨hi, hp⟩
    constructor
    · rintro ⟨hstep, hagree⟩
      exact ⟨(CacheMemory.indexed_step_iff hi hp hstep).mp hagree.indexed, hstep⟩
    · rintro ⟨hkeep, hstep⟩
      exact ⟨hstep, ((CacheMemory.indexed_step_iff hi hp hstep).mpr hkeep).tagsAgree
        (hp.step hstep)⟩
  · rintro c op c' ⟨-, hp⟩ ⟨hstep, hagree⟩
    exact ⟨hagree.indexed, hp.step hstep⟩
  · constructor
    · intro a w
      exact iff_of_false (by simp) (by simp)
    · intro s w e he
      cases he

/-- Two sets of two ways. -/
def smallCache : CacheParams where
  blockSizeBits := 6
  startIndexBit := 6
  numSets := 2
  assoc := 2
  one_lt_numSets := by decide

/-- Line 0x000 becomes `NotPresent` and line 0x100 is allocated in its way: line 0x000 is still
indexed there, and once line 0x100 is readable a lookup of 0x000 returns its entry. -/
theorem lookup_returns_other_line :
    ∃ c, Runs (Within CacheMemory.step Anytime) ({} : CacheMemory smallCache Char)
        [.allocate 0x000 'a', .changePermission (0 : Fin 2) (0 : Fin 2) .NotPresent, .allocate 0x100 'b',
          .changePermission (0 : Fin 2) (0 : Fin 2) .Read_Only] c ∧
      c.tagIndex 0x000 = c.tagIndex 0x100 ∧
      (c.lookup 0x000).toOption = some (some ⟨0x100, .Read_Only, none, 'b'⟩) := by
  exact exists_runs_of_execWithin (by decide +kernel)
