/-
# The address map

`AddrRange` (`src/base/addr_range.hh`) and `AddrRangeMap`
(`src/base/addr_range_map.hh`), with which a crossbar decodes addresses.  The map
is a `std::map` ordered by start address and interleaving match; `find` looks at
the predecessor of an upper bound and at the siblings of an interleaved range
before it.

A range carries the checks of its constructor.  The shifts of `bits` that C++
leaves undefined are errors, and so is the panic of `intersects`.

* `AddrRange.intersects_spec` — the test is exact for ranges of one family.
* `AddrRangeMap.Separated`    — the invariant: siblings apart, ranges are disjoint.
* `AddrRangeMap.Suits`, `AddrRangeMap.NoneInside` — what an insertion needs.
* `Separated.insert`          — with that, an insertion decides correctly.
-/
import Mathlib
import Gem5.TransitionSystem

open List

/-! ## Ranges -/

/-- A range; `_start` and `_end` are part of it. -/
structure AddrRange where
  _start : BitVec 64
  _end : BitVec 64
  intlvHighBit : BitVec 8 := 0
  xorHighBit : BitVec 8 := 0
  intlvBits : BitVec 8 := 0
  intlvMatch : BitVec 8 := 0
  match_fits : intlvBits ≠ 0 →
    intlvBits.toNat < 64 ∧ intlvMatch.toNat < 2 ^ intlvBits.toNat := by decide
  xor_apart : intlvBits ≠ 0 → xorHighBit ≠ 0 → xorHighBit ≠ intlvHighBit ∧
    if intlvHighBit < xorHighBit then intlvBits.toNat ≤ xorHighBit.toNat - intlvHighBit.toNat
    else intlvBits.toNat ≤ intlvHighBit.toNat - xorHighBit.toNat := by decide
  deriving DecidableEq

namespace AddrRange

/-- Extract the bitfield from position `first` to `last`. -/
def bits (val : BitVec 64) (first last : ℤ) : Except Abort (BitVec 64) :=
  if 0 ≤ last ∧ last < 64 ∧ 0 ≤ first - last + 1 ∧ first - last + 1 ≤ 64 then
    .ok ((val >>> last.toNat) &&& BitVec.ofNat 64 (2 ^ (first - last + 1).toNat - 1))
  else .error .undefined

def interleaved (r : AddrRange) : Bool := r.intlvBits ≠ 0

def hashed (r : AddrRange) : Bool := r.interleaved && r.xorHighBit ≠ 0

def size (r : AddrRange) : BitVec 64 := (r._end - r._start + 1) >>> r.intlvBits.toNat

/-- The bits of the address that are compared with `intlvMatch`. -/
def select (r : AddrRange) (a : BitVec 64) : Except Abort (BitVec 64) :=
  let low (high : BitVec 8) : ℤ := high.toNat - r.intlvBits.toNat + 1
  if r.hashed then do
    let x ← bits a r.intlvHighBit.toNat (low r.intlvHighBit)
    let y ← bits a r.xorHighBit.toNat (low r.xorHighBit)
    pure (x ^^^ y)
  else bits a r.intlvHighBit.toNat (low r.intlvHighBit)

def contains (r : AddrRange) (a : BitVec 64) : Except Abort Bool :=
  let in_range := r._start ≤ a ∧ a ≤ r._end
  if r.interleaved then
    if in_range then (r.select a).map (· == r.intlvMatch.setWidth 64) else .ok false
  else .ok in_range

def mergesWith (x r : AddrRange) : Bool :=
  r._start = x._start ∧ r._end = x._end ∧ r.intlvHighBit = x.intlvHighBit ∧
    r.xorHighBit = x.xorHighBit ∧ r.intlvBits = x.intlvBits

def intersects (x r : AddrRange) : Except Abort Bool :=
  if r._end < x._start ∨ x._end < r._start then .ok false
  else if !x.interleaved && !r.interleaved then .ok true
  else if r.size = 1 then x.contains r._start
  else if x.mergesWith r then .ok (x.intlvMatch = r.intlvMatch)
  else .error .assertion

/-- `operator<`. -/
def lt (x r : AddrRange) : Bool :=
  if x._start ≠ r._start then x._start < r._start else x.intlvMatch < r.intlvMatch

/-- `RangeSize(a, 1)`. -/
def single (a : BitVec 64) : AddrRange where
  _start := a
  _end := a + 1 - 1

/-! ### What a range holds -/

def Holds (r : AddrRange) (a : BitVec 64) : Prop := r.contains a = .ok true

def Shares (x r : AddrRange) : Prop := ∃ a, x.Holds a ∧ r.Holds a

/-- The intervals meet, interleaving apart. -/
def Meets (x r : AddrRange) : Prop := x._start ≤ r._end ∧ r._start ≤ x._end

def Valid (r : AddrRange) : Prop := r._start ≤ r._end

instance (x r : AddrRange) : Decidable (x.Meets r) := inferInstanceAs (Decidable (_ ∧ _))

instance (r : AddrRange) : Decidable r.Valid := inferInstanceAs (Decidable (_ ≤ _))

/-- The start is the address of match 0, and an interleaved range holds an address and more than
one by its size. -/
structure Anchored (r : AddrRange) : Prop where
  plain : r.interleaved = false → r.intlvMatch = 0
  start : r.interleaved = true → r.select r._start = .ok 0
  size : r.interleaved = true → r.size ≠ 1
  holds : r.interleaved = true → ∃ a, r.Holds a

variable {x y r : AddrRange} {a : BitVec 64}

theorem lt_iff : x.lt r = true ↔
    x._start < r._start ∨ x._start = r._start ∧ x.intlvMatch < r.intlvMatch := by
  unfold lt
  split
  · rename_i h
    simp [h]
  · rename_i h
    rw [not_not] at h
    simp [h]

theorem mergesWith_iff : x.mergesWith r = true ↔
    r._start = x._start ∧ r._end = x._end ∧ r.intlvHighBit = x.intlvHighBit ∧
      r.xorHighBit = x.xorHighBit ∧ r.intlvBits = x.intlvBits := by
  exact decide_eq_true_iff

theorem lt_trans (hxy : x.lt y = true) (hyr : y.lt r = true) : x.lt r = true := by
  rw [lt_iff] at *
  bv_omega

theorem lt_irrefl : ¬ x.lt x = true := by
  rw [lt_iff]
  bv_omega

theorem start_le_of_lt_eq_false (h : r.lt x = false) : x._start ≤ r._start := by
  rw [← Bool.not_eq_true, lt_iff] at h
  bv_omega

theorem mergesWith_of_mergesWith (hy : x.mergesWith y = true) (hr : x.mergesWith r = true) :
    y.mergesWith r = true := by
  rw [mergesWith_iff] at *
  obtain ⟨h₁, h₂, h₃, h₄, h₅⟩ := hy
  rw [h₁, h₂, h₃, h₄, h₅]
  exact hr

theorem holds_of_plain (h : r.interleaved = false) :
    r.Holds a ↔ r._start ≤ a ∧ a ≤ r._end := by
  unfold Holds contains
  simp [h]

theorem holds_of_interleaved (h : r.interleaved = true) :
    r.Holds a ↔ (r._start ≤ a ∧ a ≤ r._end) ∧ r.select a = .ok (r.intlvMatch.setWidth 64) := by
  unfold Holds contains
  simp only [h, if_true]
  split
  · rename_i hin
    cases hsel : r.select a with
    | error e => simp [Except.map, hin]
    | ok v => simp [Except.map, hin]
  · rename_i hin
    simp [hin]

theorem Holds.in_range (h : r.Holds a) : r._start ≤ a ∧ a ≤ r._end := by
  cases hr : r.interleaved with
  | false => exact (holds_of_plain hr).mp h
  | true => exact ((holds_of_interleaved hr).mp h).1

theorem Shares.meets (h : x.Shares r) : x.Meets r := by
  obtain ⟨a, hx, hr⟩ := h
  have := hx.in_range
  have := hr.in_range
  unfold Meets
  bv_omega

/-- Whether the selection is defined does not depend on the address. -/
theorem bits_defined {first last : ℤ} {v : BitVec 64} (h : bits a first last = .ok v)
    (b : BitVec 64) : ∃ w, bits b first last = .ok w := by
  unfold bits at h ⊢
  split at h
  · rename_i hdef
    exact ⟨_, if_pos hdef⟩
  · cases h

theorem select_defined {v : BitVec 64} (h : r.select a = .ok v) (b : BitVec 64) :
    ∃ w, r.select b = .ok w := by
  unfold select at h ⊢
  split at h
  · rename_i hhash
    rw [if_pos hhash]
    obtain ⟨x, hx, h⟩ := Except.bind_eq_ok h
    obtain ⟨y, hy, -⟩ := Except.bind_eq_ok h
    obtain ⟨x', hx'⟩ := bits_defined hx b
    obtain ⟨y', hy'⟩ := bits_defined hy b
    refine ⟨x' ^^^ y', ?_⟩
    rw [hx', hy']
    rfl
  · rename_i hhash
    rw [if_neg hhash]
    exact bits_defined h b

theorem Anchored.contains_defined (h : r.Anchored) (a : BitVec 64) :
    ∃ v, r.contains a = .ok v := by
  unfold contains
  cases hr : r.interleaved with
  | false => exact ⟨_, rfl⟩
  | true =>
    obtain ⟨v, hv⟩ := select_defined (h.start hr) a
    rw [hv, if_pos rfl]
    split
    · exact ⟨_, rfl⟩
    · exact ⟨_, rfl⟩

/-! ### Siblings -/

theorem interleaved_eq_of_mergesWith (h : x.mergesWith y = true) :
    y.interleaved = x.interleaved := by
  unfold interleaved
  rw [(mergesWith_iff.mp h).2.2.2.2]

theorem select_eq_of_mergesWith (h : x.mergesWith y = true) : y.select = x.select := by
  obtain ⟨-, -, hhigh, hxor, hbits⟩ := mergesWith_iff.mp h
  unfold select hashed
  rw [interleaved_eq_of_mergesWith h, hhigh, hxor, hbits]

/-- Siblings share an address if they have the same match. -/
theorem shares_of_mergesWith (h : x.mergesWith r = true) (hr : r.interleaved = true)
    (hholds : ∃ a, r.Holds a) : x.Shares r ↔ x.intlvMatch = r.intlvMatch := by
  have hx : x.interleaved = true := (interleaved_eq_of_mergesWith h).symm.trans hr
  obtain ⟨hstart, hend, -⟩ := mergesWith_iff.mp h
  constructor
  · rintro ⟨a, hxa, hra⟩
    have hxsel := ((holds_of_interleaved hx).mp hxa).2
    have hrsel := ((holds_of_interleaved hr).mp hra).2
    rw [select_eq_of_mergesWith h, hxsel] at hrsel
    have heq := congrArg BitVec.toNat (Except.ok.inj hrsel)
    bv_omega
  · intro heq
    obtain ⟨a, ha⟩ := hholds
    refine ⟨a, ?_, ha⟩
    rw [holds_of_interleaved hr, select_eq_of_mergesWith h, hstart, hend, ← heq] at ha
    exact (holds_of_interleaved hx).mpr ha

/-- `x` comes before `y`: it ends before `y` starts, or is a sibling with a lower match. -/
def Apart (x y : AddrRange) : Prop :=
  x._end < y._start ∨
    x.mergesWith y = true ∧ x.interleaved = true ∧ x.intlvMatch < y.intlvMatch

theorem Apart.lt (h : x.Apart y) (hx : x.Valid) : x.lt y = true := by
  rw [lt_iff]
  rcases h with h | ⟨hmerge, -, hmatch⟩
  · unfold Valid at hx
    exact .inl (by bv_omega)
  · exact .inr ⟨(mergesWith_iff.mp hmerge).1.symm, hmatch⟩

/-- An address in between: the two are siblings. -/
theorem Apart.mergesWith_of_le (h : x.Apart y) (hy : y._start ≤ a) (hx : a ≤ x._end) :
    x.mergesWith y = true ∧ x.interleaved = true := by
  rcases h with h | ⟨hmerge, hintlv, -⟩
  · bv_omega
  · exact ⟨hmerge, hintlv⟩

theorem Apart.not_shares (h : x.Apart y) : ¬ x.Shares y := by
  intro hshare
  rcases h with h | ⟨hmerge, hx, hmatch⟩
  · have := hshare.meets.2
    bv_omega
  · have hy := (interleaved_eq_of_mergesWith hmerge).trans hx
    have heq := (shares_of_mergesWith hmerge hy (hshare.imp fun _ ha => ha.2)).mp hshare
    bv_omega

/-! ### The test for an intersection -/

/-- The test is defined and exact. -/
def Decides (x r : AddrRange) : Prop :=
  ∃ hit, x.intersects r = .ok hit ∧ (hit = true ↔ x.Shares r)

theorem intersects_single : x.intersects (single a) = x.contains a := by
  have hend : (single a)._end = a := by
    show a + 1 - 1 = a
    bv_omega
  have hsize : (single a).size = 1 := by
    unfold size
    rw [hend]
    show (a - a + 1) >>> 0 = 1
    rw [BitVec.sub_self]
    decide
  have hplain : (single a).interleaved = false := rfl
  have hout : ((single a)._end < x._start ∨ x._end < (single a)._start) ↔
      ¬ (x._start ≤ a ∧ a ≤ x._end) := by
    rw [hend]
    show a < x._start ∨ x._end < a ↔ _
    bv_omega
  unfold intersects
  rw [hsize, hplain, if_congr hout rfl rfl]
  show _ = ite _ _ _
  by_cases hin : x._start ≤ a ∧ a ≤ x._end
  · rw [if_neg (not_not.mpr hin)]
    cases hx : x.interleaved with
    | false => simp [hin]
    | true =>
      show x.contains a = _
      unfold contains
      rw [hx]
  · simp [hin]

theorem shares_single : x.Shares (single a) ↔ x.Holds a := by
  have hplain : (single a).interleaved = false := rfl
  constructor
  · rintro ⟨b, hx, hb⟩
    obtain ⟨hle, hge⟩ := (holds_of_plain hplain).mp hb
    have heq : b = a := by
      change a ≤ b at hle
      change b ≤ a + 1 - 1 at hge
      bv_omega
    exact heq ▸ hx
  · intro hx
    refine ⟨a, hx, (holds_of_plain hplain).mpr ?_⟩
    show a ≤ a ∧ a ≤ a + 1 - 1
    bv_omega

theorem Anchored.decides_single (h : x.Anchored) (a : BitVec 64) : x.Decides (single a) := by
  obtain ⟨v, hv⟩ := h.contains_defined a
  refine ⟨v, intersects_single.trans hv, ?_⟩
  rw [shares_single]
  unfold Holds
  rw [hv, Except.ok.injEq]

/-- A range that holds an address comes no later than the address. -/
theorem Anchored.single_lt_eq_false (h : x.Anchored) (hx : x.Holds a) :
    (single a).lt x = false := by
  rw [← Bool.not_eq_true, lt_iff]
  show ¬ (a < x._start ∨ a = x._start ∧ 0 < x.intlvMatch)
  have hin := hx.in_range
  rintro (hlt | ⟨rfl, hmatch⟩)
  · bv_omega
  · cases hintlv : x.interleaved with
    | false =>
      rw [h.plain hintlv] at hmatch
      bv_omega
    | true =>
      have hsel := ((holds_of_interleaved hintlv).mp hx).2
      rw [h.start hintlv] at hsel
      have hzero := congrArg BitVec.toNat (Except.ok.inj hsel)
      bv_omega

theorem shares_of_plain (hx : x.interleaved = false) (hr : r.interleaved = false) (hxv : x.Valid)
    (hrv : r.Valid) (h : x.Meets r) : x.Shares r := by
  unfold Valid at hxv hrv
  unfold Meets at h
  -- the later start
  refine ⟨if x._start ≤ r._start then r._start else x._start, ?_⟩
  rw [holds_of_plain hx, holds_of_plain hr]
  split <;> bv_omega

/-- The test is exact where ranges that meet are both plain or of one family. -/
theorem intersects_spec (hx : x.Valid) (hr : r.Valid) (hanch : r.Anchored)
    (hfamily : x.Meets r → x.interleaved = true ∨ r.interleaved = true → x.mergesWith r = true) :
    x.Decides r := by
  unfold Decides intersects
  by_cases hdisj : r._end < x._start ∨ x._end < r._start
  · rw [if_pos hdisj]
    refine ⟨false, rfl, ⟨nofun, fun hshare => ?_⟩⟩
    have hmeets := hshare.meets
    unfold Meets at hmeets
    bv_omega
  have hmeets : x.Meets r := by
    unfold Meets
    bv_omega
  rw [if_neg hdisj]
  by_cases hplain : x.interleaved = false ∧ r.interleaved = false
  · rw [hplain.1, hplain.2]
    exact ⟨true, rfl, ⟨fun _ => shares_of_plain hplain.1 hplain.2 hx hr hmeets, fun _ => rfl⟩⟩
  · have hintlv : x.interleaved = true ∨ r.interleaved = true := by
      rw [← Bool.not_eq_false, ← Bool.not_eq_false]
      exact not_and_or.mp hplain
    have hmerge := hfamily hmeets hintlv
    have heq := interleaved_eq_of_mergesWith hmerge
    have hri : r.interleaved = true := hintlv.elim heq.trans id
    rw [← heq, hri, if_neg (hanch.size hri), if_pos hmerge]
    exact ⟨_, rfl, decide_eq_true_iff.trans (shares_of_mergesWith hmerge hri (hanch.holds hri)).symm⟩

end AddrRange

/-! ## The map -/

section split

variable {α : Type*} {p : α → Bool} {l : List α}

/-- Where a list has its members with `p` first, `takeWhile` takes them all. -/
theorem takeWhile_eq_filter (h : l.Pairwise fun x y => p y = true → p x = true) :
    l.takeWhile p = l.filter p := by
  induction l with
  | nil => rfl
  | cons x l ih =>
    obtain ⟨hx, hl⟩ := pairwise_cons.mp h
    by_cases hp : p x = true
    · rw [takeWhile_cons_of_pos hp, filter_cons_of_pos hp, ih hl]
    · rw [takeWhile_cons_of_neg hp, filter_cons_of_neg hp]
      exact (filter_eq_nil_iff.mpr fun y hy hpy => hp (hx y hy hpy)).symm

theorem dropWhile_eq_filter (h : l.Pairwise fun x y => p y = true → p x = true) :
    l.dropWhile p = l.filter fun x => !p x := by
  induction l with
  | nil => rfl
  | cons x l ih =>
    obtain ⟨hx, hl⟩ := pairwise_cons.mp h
    by_cases hp : p x = true
    · rw [dropWhile_cons_of_pos hp, filter_cons_of_neg (by simpa using hp), ih hl]
    · rw [dropWhile_cons_of_neg hp]
      refine (filter_eq_self.mpr fun y hy => ?_).symm
      rcases mem_cons.mp hy with rfl | hy
      · simpa using hp
      · simpa using fun hpy => hp (hx y hy hpy)

end split

/-- `std::map<AddrRange, V>`: in the order of the ranges, without equivalent ones. -/
structure AddrRangeMap (V : Type) where
  tree : List (AddrRange × V)
  sorted : tree.Pairwise fun e e' => e.1.lt e'.1 = true

namespace AddrRangeMap

variable {V : Type}

def empty : AddrRangeMap V := ⟨[], .nil⟩

/-- The entries before `upper_bound(r)`. -/
def before (m : AddrRangeMap V) (r : AddrRange) : List (AddrRange × V) :=
  m.tree.takeWhile fun e => !r.lt e.1

/-- The entries from `upper_bound(r)` on. -/
def after (m : AddrRangeMap V) (r : AddrRange) : List (AddrRange × V) :=
  m.tree.dropWhile fun e => !r.lt e.1

/-- Return the entry if it intersects the range. -/
def check (r : AddrRange) (i : AddrRange × V) (next : Except Abort (Option (AddrRange × V))) :
    Except Abort (Option (AddrRange × V)) := do
  let hit ← i.1.intersects r
  if hit then pure (some i) else next

/-- The loop over the siblings; the list holds the entries before `i`, the last of them first. -/
def walkBack (orig r : AddrRange) :
    AddrRange × V → List (AddrRange × V) → Except Abort (Option (AddrRange × V))
  | i, [] => check r i (.ok none)
  | i, j :: rest =>
    if i.1.mergesWith orig then check r j (walkBack orig r j rest)
    else check r i (.ok none)

def find (m : AddrRangeMap V) (r : AddrRange) : Except Abort (Option (AddrRange × V)) :=
  match (m.before r).reverse with
  | [] =>
    match m.tree with
    | [] => .ok none
    | i :: _ => check r i (.ok none)
  | i :: rest => check r i (if i.1.interleaved then walkBack i.1 r i rest else .ok none)

/-- The entry whose key is equivalent to the range. -/
def equivalent (m : AddrRangeMap V) (r : AddrRange) : Option (AddrRange × V) :=
  m.tree.find? fun e => !e.1.lt r && !r.lt e.1

theorem upward (m : AddrRangeMap V) (r : AddrRange) :
    m.tree.Pairwise fun e e' => (!r.lt e'.1) = true → (!r.lt e.1) = true := by
  refine m.sorted.imp fun hlt hr => ?_
  rw [Bool.not_eq_true'] at hr ⊢
  rw [Bool.eq_false_iff] at hr ⊢
  exact fun h => hr (AddrRange.lt_trans h hlt)

variable {m : AddrRangeMap V} {r : AddrRange}

theorem mem_before {e : AddrRange × V} :
    e ∈ m.before r ↔ e ∈ m.tree ∧ r.lt e.1 = false := by
  unfold before
  rw [takeWhile_eq_filter (m.upward r), mem_filter, Bool.not_eq_true']

theorem mem_after {e : AddrRange × V} :
    e ∈ m.after r ↔ e ∈ m.tree ∧ r.lt e.1 = true := by
  unfold after
  rw [dropWhile_eq_filter (m.upward r), mem_filter, Bool.not_not]

theorem before_append_after (m : AddrRangeMap V) (r : AddrRange) :
    m.before r ++ m.after r = m.tree := takeWhile_append_dropWhile

/-- A relation that holds in the map and between it and a new entry holds in the map with the entry
put at its place. -/
theorem pairwise_insert {d : V}
    {R : AddrRange × V → AddrRange × V → Prop} (h : m.tree.Pairwise R)
    (hbefore : ∀ e ∈ m.tree, r.lt e.1 = false → R e (r, d))
    (hafter : ∀ e ∈ m.tree, r.lt e.1 = true → R (r, d) e) :
    (m.before r ++ (r, d) :: m.after r).Pairwise R := by
  rw [← m.before_append_after r, pairwise_append] at h
  obtain ⟨hb, ha, hba⟩ := h
  refine pairwise_append.mpr ⟨hb, pairwise_cons.mpr ⟨?_, ha⟩, ?_⟩
  · intro e he
    obtain ⟨hmem, hlt⟩ := mem_after.mp he
    exact hafter e hmem hlt
  · intro e he e' he'
    rcases mem_cons.mp he' with rfl | he'
    · obtain ⟨hmem, hlt⟩ := mem_before.mp he
      exact hbefore e hmem hlt
    · exact hba e he e' he'

theorem sorted_insert (h : m.equivalent r = none) (d : V) :
    (m.before r ++ (r, d) :: m.after r).Pairwise fun e e' => e.1.lt e'.1 = true := by
  refine pairwise_insert m.sorted (fun e he hlt => ?_) fun e _ hlt => hlt
  have hne := find?_eq_none.mp h e he
  rw [hlt] at hne
  simpa using hne

/-- `tree.insert`, which leaves the map as it is when the key is there. -/
def treeInsert (m : AddrRangeMap V) (r : AddrRange) (d : V) : (AddrRange × V) × AddrRangeMap V :=
  match h : m.equivalent r with
  | some e => (e, m)
  | none => ((r, d), ⟨m.before r ++ (r, d) :: m.after r, sorted_insert h d⟩)

/-- The new entry and the map, or `end()`. -/
def insert (m : AddrRangeMap V) (r : AddrRange) (d : V) :
    Except Abort (Option (AddrRange × V) × AddrRangeMap V) := do
  match ← m.find r with
  | some _ => pure (none, m)
  | none => pure (some (m.treeInsert r d).1, (m.treeInsert r d).2)

/-- Erase the entry at a position; there is none to erase at `end()`. -/
def erase (m : AddrRangeMap V) (i : ℕ) : Except Abort (AddrRangeMap V) :=
  if i < m.tree.length then
    .ok ⟨m.tree.eraseIdx i, m.sorted.sublist (List.eraseIdx_sublist ..)⟩
  else .error .undefined

inductive Op (V : Type)
  | insert (r : AddrRange) (d : V)
  | erase (i : ℕ)

def step (m : AddrRangeMap V) : Op V → Except Abort (AddrRangeMap V)
  | .insert r d => (m.insert r d).map Prod.snd
  | .erase i => m.erase i

/-! ### Searching -/

section search

variable {m : AddrRangeMap V} {r orig : AddrRange} {i x : AddrRange × V}
  {rest mid old : List (AddrRange × V)} {next : Except Abort (Option (AddrRange × V))}

theorem check_of_shares (h : i.1.Decides r) (hi : i.1.Shares r) :
    check r i next = .ok (some i) := by
  obtain ⟨hit, heq, hiff⟩ := h
  unfold check
  rw [heq, hiff.mpr hi]
  rfl

theorem check_of_not_shares (h : i.1.Decides r) (hi : ¬ i.1.Shares r) : check r i next = next := by
  obtain ⟨hit, heq, hiff⟩ := h
  have hfalse : hit = false := Bool.eq_false_iff.mpr fun htrue => hi (hiff.mp htrue)
  unfold check
  rw [heq, hfalse]
  rfl

theorem check_sound {Q : AddrRange × V → Prop} (h : i.1.Decides r) (hi : i.1.Shares r → Q i)
    (hnext : ∃ res, next = .ok res ∧ ∀ e, res = some e → Q e) :
    ∃ res, check r i next = .ok res ∧ ∀ e, res = some e → Q e := by
  by_cases hshare : i.1.Shares r
  · refine ⟨some i, check_of_shares h hshare, ?_⟩
    rintro _ ⟨⟩
    exact hi hshare
  · rw [check_of_not_shares h hshare]
    exact hnext

/-- What the loop returns is one of the entries and intersects the range. -/
theorem walkBack_sound (h : ∀ e ∈ i :: rest, e.1.Decides r) :
    ∃ res, walkBack orig r i rest = .ok res ∧ ∀ e, res = some e → e ∈ i :: rest ∧ e.1.Shares r := by
  induction rest generalizing i with
  | nil =>
    have hi := mem_singleton_self i
    exact check_sound (h i hi) (fun hshare => ⟨hi, hshare⟩) ⟨none, rfl, nofun⟩
  | cons j rest ih =>
    obtain ⟨res, heq, hres⟩ := ih fun e he => h e (.tail i he)
    have hi : i ∈ i :: j :: rest := mem_cons_self ..
    have hj : j ∈ i :: j :: rest := .tail i mem_cons_self
    unfold walkBack
    split
    · refine check_sound (h j hj) (fun hshare => ⟨hj, hshare⟩) ⟨res, heq, fun e he => ?_⟩
      exact ⟨.tail i (hres e he).1, (hres e he).2⟩
    · exact check_sound (h i hi) (fun hshare => ⟨hi, hshare⟩) ⟨none, rfl, nofun⟩

/-- The loop does not miss an entry that it reaches through siblings. -/
theorem walkBack_complete (h : ∀ e ∈ i :: rest, e.1.Decides r) (hi : ¬ i.1.Shares r)
    (hx : x.1.Shares r) (hrest : i :: rest = mid ++ x :: old)
    (hmid : ∀ k ∈ mid, k.1.mergesWith orig = true) :
    ∃ e, walkBack orig r i rest = .ok (some e) := by
  induction rest generalizing i mid with
  | nil =>
    rcases cons_eq_append_iff.mp hrest with ⟨-, heq⟩ | ⟨mid', -, heq⟩
    · exact absurd ((cons.inj heq).1 ▸ hx) hi
    · exact absurd heq (by simp)
  | cons j rest ih =>
    rcases cons_eq_append_iff.mp hrest with ⟨-, heq⟩ | ⟨mid', rfl, heq⟩
    · exact absurd ((cons.inj heq).1 ▸ hx) hi
    · have hj : j ∈ i :: j :: rest := .tail i mem_cons_self
      unfold walkBack
      rw [if_pos (hmid i mem_cons_self)]
      by_cases hshare : j.1.Shares r
      · exact ⟨j, check_of_shares (h j hj) hshare⟩
      · rw [check_of_not_shares (h j hj) hshare]
        exact ih (fun e he => h e (.tail i he)) hshare heq fun k hk => hmid k (.tail i hk)

/-- What `find` returns is in the map and intersects the range. -/
theorem find_sound (h : ∀ e ∈ m.tree, e.1.Decides r) :
    ∃ res, m.find r = .ok res ∧ ∀ e, res = some e →
      e ∈ m.tree ∧ e.1.Shares r ∧ (m.before r ≠ [] → e ∈ m.before r) := by
  unfold find
  split
  · rename_i hnil
    rw [reverse_eq_nil_iff] at hnil
    split
    · exact ⟨none, rfl, nofun⟩
    · rename_i i rest htree
      have hi : i ∈ m.tree := htree ▸ mem_cons_self ..
      exact check_sound (h i hi) (fun hshare => ⟨hi, hshare, fun hne => absurd hnil hne⟩)
        ⟨none, rfl, nofun⟩
  · rename_i i rest heq
    have hmem : ∀ e ∈ i :: rest, e ∈ m.before r := by
      intro e he
      rw [← heq] at he
      exact mem_reverse.mp he
    have hdec : ∀ e ∈ i :: rest, e.1.Decides r :=
      fun e he => h e (mem_before.mp (hmem e he)).1
    have hi : i ∈ i :: rest := mem_cons_self ..
    refine check_sound (hdec i hi)
      (fun hshare => ⟨(mem_before.mp (hmem i hi)).1, hshare, fun _ => hmem i hi⟩) ?_
    split
    · obtain ⟨res, hwalk, hres⟩ := walkBack_sound hdec
      refine ⟨res, hwalk, fun e he => ?_⟩
      obtain ⟨hin, hshare⟩ := hres e he
      exact ⟨(mem_before.mp (hmem e hin)).1, hshare, fun _ => hmem e hin⟩
    · exact ⟨none, rfl, nofun⟩

end search

/-! ### Separated maps -/

/-- Each range starts at match 0 of its family, and each two are disjoint or siblings. -/
structure Separated (m : AddrRangeMap V) : Prop where
  valid : ∀ e ∈ m.tree, e.1.Valid
  anchored : ∀ e ∈ m.tree, e.1.Anchored
  apart : m.tree.Pairwise fun e e' => e.1.Apart e'.1

section separated

variable {m : AddrRangeMap V} {r : AddrRange} {x y : AddrRange × V} {d : V}

theorem Separated.apart_of_lt (h : m.Separated) (hx : x ∈ m.tree) (hy : y ∈ m.tree)
    (hlt : x.1.lt y.1 = true) : x.1.Apart y.1 := by
  have hne : x ≠ y := by
    rintro rfl
    exact AddrRange.lt_irrefl hlt
  have hor : m.tree.Pairwise fun e e' => e.1.Apart e'.1 ∨ e'.1.Apart e.1 := h.apart.imp .inl
  have : Std.Symm fun e e' : AddrRange × V => e.1.Apart e'.1 ∨ e'.1.Apart e.1 :=
    ⟨fun _ _ => Or.symm⟩
  refine (hor.forall hx hy hne).resolve_right fun hyx => ?_
  exact AddrRange.lt_irrefl (AddrRange.lt_trans hlt (hyx.lt (h.valid y hy)))

theorem Separated.eq_of_shares (h : m.Separated) (hx : x ∈ m.tree) (hy : y ∈ m.tree)
    (hshare : x.1.Shares y.1) : x = y := by
  by_contra hne
  have hnot : m.tree.Pairwise fun e e' => ¬ e.1.Shares e'.1 := h.apart.imp AddrRange.Apart.not_shares
  have : Std.Symm fun e e' : AddrRange × V => ¬ e.1.Shares e'.1 :=
    ⟨fun _ _ hn hshare => hn (hshare.imp fun _ => And.symm)⟩
  exact hnot.forall hx hy hne hshare

/-- An entry that shares an address with the range and does not come after it is found, or another
is. -/
theorem Separated.find_of_before (h : m.Separated) (hdec : ∀ e ∈ m.tree, e.1.Decides r)
    (hx : x ∈ m.tree) (hlt : r.lt x.1 = false) (hshare : x.1.Shares r) :
    ∃ e, m.find r = .ok (some e) := by
  have hmem : x ∈ (m.before r).reverse := mem_reverse.mpr (mem_before.mpr ⟨hx, hlt⟩)
  have hapart : (m.before r).reverse.Pairwise fun e e' => e'.1.Apart e.1 :=
    pairwise_reverse.mpr (h.apart.sublist (takeWhile_sublist _))
  have hbefore : ∀ e ∈ (m.before r).reverse, e ∈ m.tree ∧ r.lt e.1 = false :=
    fun e he => mem_before.mp (mem_reverse.mp he)
  unfold find
  split
  · rename_i hnil
    rw [hnil] at hmem
    cases hmem
  · rename_i i rest heq
    rw [heq] at hmem hapart hbefore
    have hi : i ∈ i :: rest := mem_cons_self ..
    have hdec' : ∀ e ∈ i :: rest, e.1.Decides r := fun e he => hdec e (hbefore e he).1
    by_cases hishare : i.1.Shares r
    · exact ⟨i, check_of_shares (hdec' i hi) hishare⟩
    rw [check_of_not_shares (hdec' i hi) hishare]
    obtain ⟨mid, old, hsplit⟩ := append_of_mem hmem
    -- the entries from `x` to `i` start at or before the range and not after the end of `x`
    have hmid : ∀ k ∈ mid, x.1.mergesWith k.1 = true ∧ x.1.interleaved = true := by
      intro k hk
      have hxk : x.1.Apart k.1 := by
        rw [hsplit] at hapart
        exact (pairwise_append.mp hapart).2.2 k hk x mem_cons_self
      have hkmem : k ∈ i :: rest := hsplit ▸ mem_append_left _ hk
      exact hxk.mergesWith_of_le (AddrRange.start_le_of_lt_eq_false (hbefore k hkmem).2)
        hshare.meets.2
    have hmem_mid : i ∈ mid := by
      rcases cons_eq_append_iff.mp hsplit with ⟨-, hcons⟩ | ⟨mid', rfl, -⟩
      · exact absurd ((cons.inj hcons).1 ▸ hshare) hishare
      · exact mem_cons_self ..
    obtain ⟨himerge, hx'⟩ := hmid i hmem_mid
    rw [if_pos ((AddrRange.interleaved_eq_of_mergesWith himerge).trans hx')]
    exact walkBack_complete hdec' hishare hshare hsplit
      fun k hk => AddrRange.mergesWith_of_mergesWith (hmid k hk).1 himerge

/-- The entry that holds an address is found by it. -/
theorem Separated.find_single (h : m.Separated) (a : BitVec 64) :
    ∃ res, m.find (.single a) = .ok res ∧ ∀ e, res = some e ↔ e ∈ m.tree ∧ e.1.Holds a := by
  have hdec : ∀ e ∈ m.tree, e.1.Decides (.single a) :=
    fun e he => (h.anchored e he).decides_single a
  obtain ⟨res, hfind, hres⟩ := find_sound hdec
  have hsound : ∀ e, res = some e → e ∈ m.tree ∧ e.1.Holds a := by
    intro e he
    obtain ⟨hmem, hshare, -⟩ := hres e he
    exact ⟨hmem, AddrRange.shares_single.mp hshare⟩
  refine ⟨res, hfind, fun e => ⟨hsound e, ?_⟩⟩
  rintro ⟨hmem, hholds⟩
  have hlt : (AddrRange.single a).lt e.1 = false := (h.anchored e hmem).single_lt_eq_false hholds
  obtain ⟨e', he'⟩ := h.find_of_before hdec hmem hlt (AddrRange.shares_single.mpr hholds)
  rw [hfind] at he'
  cases he'
  obtain ⟨hmem', hholds'⟩ := hsound e' rfl
  rw [h.eq_of_shares hmem' hmem ⟨a, hholds', hholds⟩]

/-! ### Inserting -/

/-- A valid range that is anchored, and of one family with the interleaved ranges it meets. -/
structure Suits (m : AddrRangeMap V) (r : AddrRange) : Prop where
  valid : r.Valid
  anchored : r.Anchored
  family : ∀ e ∈ m.tree, e.1.Meets r → e.1.interleaved = true ∨ r.interleaved = true →
    e.1.mergesWith r = true

/-- Where all the entries that do not come after the range end before it, no entry starts inside
it. -/
def NoneInside (m : AddrRangeMap V) (r : AddrRange) : Prop :=
  (∃ e ∈ m.tree, r.lt e.1 = false) → (∀ e ∈ m.tree, r.lt e.1 = false → e.1._end < r._start) →
    ∀ e ∈ m.tree, ¬ (r._start < e.1._start ∧ e.1._start ≤ r._end)

instance (m : AddrRangeMap V) (r : AddrRange) : Decidable (m.NoneInside r) :=
  inferInstanceAs (Decidable (_ → _))

section

variable (hr : m.Suits r) (h : m.Separated)

include hr h

theorem Suits.decides : ∀ e ∈ m.tree, e.1.Decides r :=
  fun e he => AddrRange.intersects_spec (h.valid e he) hr.valid hr.anchored (hr.family e he)

/-- Entries that meet the range share an address with it or are its siblings. -/
theorem Suits.shares_or (hx : x ∈ m.tree) (hmeets : x.1.Meets r) :
    x.1.Shares r ∨ x.1.mergesWith r = true ∧ r.interleaved = true := by
  by_cases hplain : x.1.interleaved = false ∧ r.interleaved = false
  · exact .inl (AddrRange.shares_of_plain hplain.1 hplain.2 (h.valid x hx) hr.valid hmeets)
  · rw [not_and_or, Bool.not_eq_false, Bool.not_eq_false] at hplain
    have hmerge := hr.family x hx hmeets hplain
    exact .inr ⟨hmerge, hplain.elim (AddrRange.interleaved_eq_of_mergesWith hmerge).trans id⟩

theorem Suits.shares_of_start_ne (hx : x ∈ m.tree)
    (hmeets : x.1.Meets r) (hne : r._start ≠ x.1._start) : x.1.Shares r :=
  (hr.shares_or h hx hmeets).resolve_right fun hsib => hne (AddrRange.mergesWith_iff.mp hsib.1).1

/-- The entries before one that starts inside the range. -/
theorem Suits.shares_of_lt (hx : x ∈ m.tree) (hy : y ∈ m.tree)
    (hmeets : x.1.Meets r) (hlt : x.1.lt y.1 = true) (hstart : r._start < y.1._start)
    (hend : y.1._start ≤ r._end) : x.1.Shares r := by
  refine (hr.shares_or h hx hmeets).resolve_right fun hsib => ?_
  obtain ⟨hs, he, -⟩ := AddrRange.mergesWith_iff.mp hsib.1
  rw [he] at hend
  have hmerge := ((h.apart_of_lt hx hy hlt).mergesWith_of_le hend (BitVec.le_refl _)).1
  have hsy := (AddrRange.mergesWith_iff.mp hmerge).1
  bv_omega

theorem Suits.start_lt_of_lt (hx : x ∈ m.tree)
    (hshare : x.1.Shares r) (hlt : r.lt x.1 = true) : r._start < x.1._start := by
  rcases AddrRange.lt_iff.mp hlt with hlt | ⟨hstart, hmatch⟩
  · exact hlt
  cases hri : r.interleaved with
  | false =>
    cases hxi : x.1.interleaved with
    | false =>
      rw [(h.anchored x hx).plain hxi] at hmatch
      bv_omega
    | true =>
      have hmerge := hr.family x hx hshare.meets (.inl hxi)
      rw [AddrRange.interleaved_eq_of_mergesWith hmerge, hxi] at hri
      cases hri
  | true =>
    have hmerge := hr.family x hx hshare.meets (.inr hri)
    have heq := (AddrRange.shares_of_mergesWith hmerge hri (hr.anchored.holds hri)).mp hshare
    bv_omega

end

/-- Without an entry at or before the range, the first entry decides. -/
theorem find_of_first (hdec : ∀ e ∈ m.tree, e.1.Decides r) (hbefore : m.before r = [])
    {rest : List (AddrRange × V)} (htree : m.tree = x :: rest) (hshare : x.1.Shares r) :
    m.find r = .ok (some x) := by
  have hx : x ∈ m.tree := htree ▸ mem_cons_self ..
  unfold find
  rw [hbefore, htree]
  exact check_of_shares (hdec x hx) hshare

/-- With no entry starting inside the range, an entry that shares an address with it is found, or
another is. -/
theorem Separated.find_of_shares (h : m.Separated) (hr : m.Suits r) (hnone : m.NoneInside r)
    (hx : x ∈ m.tree) (hshare : x.1.Shares r) : ∃ e, m.find r = .ok (some e) := by
  have hdec := hr.decides h
  have hend : x.1._start ≤ r._end := hshare.meets.1
  cases hlt : r.lt x.1 with
  | false => exact h.find_of_before hdec hx hlt hshare
  | true =>
  have hstart := hr.start_lt_of_lt h hx hshare hlt
  by_cases hne : ∃ e ∈ m.tree, r.lt e.1 = false
  · -- an entry before the range reaches into it
    have hreach : ∃ e ∈ m.tree, r.lt e.1 = false ∧ ¬ e.1._end < r._start := by
      by_contra hnot
      refine hnone hne (fun e he hlt => ?_) x hx ⟨hstart, hend⟩
      by_contra hge
      exact hnot ⟨e, he, hlt, hge⟩
    obtain ⟨e, he, hlte, hge⟩ := hreach
    have hle := AddrRange.start_le_of_lt_eq_false hlte
    have hmeets : e.1.Meets r := by
      unfold AddrRange.Meets
      bv_omega
    have hlex : e.1.lt x.1 = true := AddrRange.lt_iff.mpr (.inl (by bv_omega))
    exact h.find_of_before hdec he hlte (hr.shares_of_lt h he hx hmeets hlex hstart hend)
  · have hbefore : m.before r = [] := by
      refine eq_nil_iff_forall_not_mem.mpr fun e he => ?_
      exact hne ⟨e, mem_before.mp he⟩
    obtain ⟨f, rest, htree⟩ := exists_cons_of_ne_nil (ne_nil_of_mem hx)
    have hf : f ∈ m.tree := htree ▸ mem_cons_self ..
    refine ⟨f, find_of_first hdec hbefore htree ?_⟩
    have hxf : x = f ∨ x ∈ rest := mem_cons.mp (htree ▸ hx)
    rcases hxf with rfl | hxrest
    · exact hshare
    · have hfx : f.1.lt x.1 = true := by
        have hsorted := m.sorted
        rw [htree] at hsorted
        exact rel_of_pairwise_cons hsorted hxrest
      have hrf : r.lt f.1 = true := Bool.not_eq_false _ ▸ fun hfalse => hne ⟨f, hf, hfalse⟩
      have hmeets : f.1.Meets r := by
        have hfvalid := h.valid f hf
        rw [AddrRange.lt_iff] at hfx hrf
        unfold AddrRange.Meets
        unfold AddrRange.Valid at hfvalid
        bv_omega
      exact hr.shares_of_lt h hf hx hmeets hfx hstart hend

/-- `find` is right about the range if, and only if, no entry starts inside it unseen. -/
theorem Separated.find_iff (h : m.Separated) (hr : m.Suits r) :
    ∃ res, m.find r = .ok res ∧
      ((res ≠ none ↔ ∃ e ∈ m.tree, e.1.Shares r) ↔ m.NoneInside r) := by
  obtain ⟨res, hfind, hres⟩ := find_sound (hr.decides h)
  refine ⟨res, hfind, ?_, ?_⟩
  · intro hiff hne hall x hx hinside
    have hmeets : x.1.Meets r := by
      have hvalid := h.valid x hx
      unfold AddrRange.Meets
      unfold AddrRange.Valid at hvalid
      bv_omega
    have hshare := hr.shares_of_start_ne h hx hmeets (by bv_omega)
    obtain ⟨e, he⟩ := Option.ne_none_iff_exists'.mp (hiff.mpr ⟨x, hx, hshare⟩)
    obtain ⟨hmem, hshare', hbefore⟩ := hres e he
    obtain ⟨f, hf⟩ := hne
    have hin := hbefore (ne_nil_of_mem (mem_before.mpr hf))
    have hlt := hall e hmem (mem_before.mp hin).2
    have hge := hshare'.meets.2
    bv_omega
  · intro hnone
    constructor
    · intro hne
      obtain ⟨e, he⟩ := Option.ne_none_iff_exists'.mp hne
      exact ⟨e, (hres e he).1, (hres e he).2.1⟩
    · rintro ⟨x, hx, hshare⟩
      obtain ⟨e, he⟩ := h.find_of_shares hr hnone hx hshare
      rw [hfind] at he
      rw [Except.ok.inj he]
      exact Option.some_ne_none e

theorem Separated.insert_iff (h : m.Separated) (hr : m.Suits r) (d : V) :
    ∃ res m', m.insert r d = .ok (res, m') ∧
      ((res = none ↔ ∃ e ∈ m.tree, e.1.Shares r) ↔ m.NoneInside r) := by
  obtain ⟨found, hfind, hiff⟩ := h.find_iff hr
  unfold insert
  rw [hfind]
  cases found with
  | none =>
    refine ⟨_, _, rfl, Iff.trans ?_ hiff⟩
    simp
  | some e =>
    refine ⟨_, _, rfl, Iff.trans ?_ hiff⟩
    simp

theorem Suits.apart_or (hr : m.Suits r) (h : m.Separated) (hx : x ∈ m.tree)
    (hnot : ¬ x.1.Shares r) : x.1.Apart r ∨ r.Apart x.1 := by
  by_cases hmeets : x.1.Meets r
  · obtain ⟨hmerge, hri⟩ := (hr.shares_or h hx hmeets).resolve_left hnot
    rw [AddrRange.shares_of_mergesWith hmerge hri (hr.anchored.holds hri)] at hnot
    have hxi := (AddrRange.interleaved_eq_of_mergesWith hmerge).symm.trans hri
    have hself : x.1.mergesWith x.1 = true := AddrRange.mergesWith_iff.mpr ⟨rfl, rfl, rfl, rfl, rfl⟩
    rcases lt_or_gt_of_ne (mt BitVec.eq_of_toNat_eq hnot) with hlt | hgt
    · exact .inl (.inr ⟨hmerge, hxi, hlt⟩)
    · exact .inr (.inr ⟨AddrRange.mergesWith_of_mergesWith hmerge hself, hri, hgt⟩)
  · unfold AddrRange.Meets at hmeets
    have hout : x.1._end < r._start ∨ r._end < x.1._start := by bv_omega
    exact hout.imp .inl .inl

theorem Separated.insert (h : m.Separated) (hr : m.Suits r) (hnone : m.NoneInside r) (d : V) :
    ∃ res m', m.insert r d = .ok (res, m') ∧ m'.Separated := by
  obtain ⟨found, hfind, hiff⟩ := h.find_iff hr
  unfold AddrRangeMap.insert
  rw [hfind]
  cases found with
  | some e => exact ⟨_, _, rfl, h⟩
  | none =>
    have hapart : ∀ e ∈ m.tree, e.1.Apart r ∨ r.Apart e.1 := fun e he =>
      hr.apart_or h he fun hshare => hiff.mpr hnone |>.mpr ⟨e, he, hshare⟩ rfl
    have hequiv : m.equivalent r = none := by
      refine find?_eq_none.mpr fun e he => ?_
      rcases hapart e he with hap | hap
      · simp [hap.lt (h.valid e he)]
      · simp [hap.lt hr.valid]
    refine ⟨_, _, rfl, ?_⟩
    have htree : (m.treeInsert r d).2.tree = m.before r ++ (r, d) :: m.after r := by
      unfold treeInsert
      split
      · rename_i e heq
        cases hequiv.symm.trans heq
      · rfl
    have hmem : ∀ e ∈ (m.treeInsert r d).2.tree, e = (r, d) ∨ e ∈ m.tree := by
      intro e he
      rw [htree, mem_append, mem_cons] at he
      rcases he with he | rfl | he
      · exact .inr (mem_before.mp he).1
      · exact .inl rfl
      · exact .inr (mem_after.mp he).1
    constructor
    · intro e he
      rcases hmem e he with rfl | he
      · exact hr.valid
      · exact h.valid e he
    · intro e he
      rcases hmem e he with rfl | he
      · exact hr.anchored
      · exact h.anchored e he
    · rw [htree]
      refine pairwise_insert h.apart (fun e he hlt => ?_) fun e he hlt => ?_
      · refine (hapart e he).resolve_right fun hap => ?_
        exact Bool.false_ne_true (hlt.symm.trans (hap.lt hr.valid))
      · refine (hapart e he).resolve_left fun hap => ?_
        exact AddrRange.lt_irrefl (AddrRange.lt_trans hlt (hap.lt (h.valid e he)))

end separated

/-! ### Runs -/

/-- What an operation needs: an entry to erase; a range that suits the map and has no entry start
inside it unseen. -/
def Fits (m : AddrRangeMap V) : Op V → Prop
  | .insert r _ => m.Suits r ∧ m.NoneInside r
  | .erase i => i < m.tree.length

theorem Separated.step {op : Op V} (h : m.Separated) (hop : m.Fits op) :
    ∃ m', m.step op = .ok m' ∧ m'.Separated := by
  cases op with
  | insert r d =>
    obtain ⟨res, m', heq, hm'⟩ := h.insert hop.1 hop.2 d
    refine ⟨m', ?_, hm'⟩
    show (m.insert r d).map Prod.snd = _
    rw [heq]
    rfl
  | erase i =>
    have hsub : (m.tree.eraseIdx i).Sublist m.tree := eraseIdx_sublist ..
    refine ⟨_, if_pos hop, ?_⟩
    exact ⟨fun e he => h.valid e (hsub.subset he), fun e he => h.anchored e (hsub.subset he),
      h.apart.sublist hsub⟩

end AddrRangeMap

/-- **The address map.**  In every map that is built by insertions and erasures that fit: no two
entries hold an address in common; an address finds the entry that holds it, if there is one; and an
insertion of a range that suits the map fails exactly for a range that shares an address with an
entry if, and only if, no entry starts inside the range unseen. -/
theorem addr_range_map_decodes {V : Type} {ops : List (AddrRangeMap.Op V)} {m : AddrRangeMap V}
    (h : Runs (Within AddrRangeMap.step AddrRangeMap.Fits) .empty ops m) :
    (m.tree.Pairwise fun e e' => ¬ e.1.Shares e'.1) ∧
    (∀ a, ∃ res, m.find (.single a) = .ok res ∧
      ∀ e, res = some e ↔ e ∈ m.tree ∧ e.1.Holds a) ∧
    ∀ r d, m.Suits r → ∃ res m', m.insert r d = .ok (res, m') ∧
      ((res = none ↔ ∃ e ∈ m.tree, e.1.Shares r) ↔ m.NoneInside r) := by
  have hm : m.Separated := h.invariant_of_progress (P := fun m => m.Separated)
    (fun _ _ hm hop => hm.step hop) ⟨nofun, nofun, .nil⟩
  exact ⟨hm.apart.imp AddrRange.Apart.not_shares, hm.find_single, fun r d hr => hm.insert_iff hr d⟩

/-- A plain range, and the two halves of a range interleaved in units of 64 bytes. -/
def lowRange : AddrRange where
  _start := 0
  _end := 0xfff

def evenHalf : AddrRange where
  _start := 0x1000
  _end := 0x1fff
  intlvHighBit := 6
  intlvBits := 1

def oddHalf : AddrRange := { evenHalf with intlvMatch := 1, match_fits := by decide }

theorem addr_range_map_decodes_halves :
    ∃ m : AddrRangeMap ℕ, Runs (Within AddrRangeMap.step AddrRangeMap.Fits) .empty
        [.insert lowRange 0, .insert oddHalf 1, .insert evenHalf 2] m ∧
      m.tree = [(lowRange, 0), (evenHalf, 2), (oddHalf, 1)] ∧
      (m.tree.Pairwise fun e e' => ¬ e.1.Shares e'.1) ∧
      (∀ a, ∃ res, m.find (.single a) = .ok res ∧
        ∀ e, res = some e ↔ e ∈ m.tree ∧ e.1.Holds a) ∧
      ∀ r d, m.Suits r → ∃ res m', m.insert r d = .ok (res, m') ∧
        ((res = none ↔ ∃ e ∈ m.tree, e.1.Shares r) ↔ m.NoneInside r) := by
  have hlow : lowRange.Anchored := ⟨fun _ => rfl, nofun, nofun, nofun⟩
  have heven : evenHalf.Anchored := ⟨nofun, fun _ => rfl, fun _ => by decide, fun _ => ⟨0x1000, rfl⟩⟩
  have hodd : oddHalf.Anchored := ⟨nofun, fun _ => rfl, fun _ => by decide, fun _ => ⟨0x1040, rfl⟩⟩
  have hrun : Runs (Within AddrRangeMap.step AddrRangeMap.Fits) .empty
      [.insert lowRange 0, .insert oddHalf 1, .insert evenHalf 2]
      (⟨[(lowRange, 0), (evenHalf, 2), (oddHalf, 1)], by decide⟩ : AddrRangeMap ℕ) := by
    refine .cons (t := ⟨[(lowRange, 0)], by decide⟩) ⟨⟨⟨by decide, hlow, nofun⟩, nofun⟩, rfl⟩ ?_
    refine .cons (t := ⟨[(lowRange, 0), (oddHalf, 1)], by decide⟩)
      ⟨⟨⟨by decide, hodd, by decide⟩, by decide⟩, rfl⟩ ?_
    refine .cons ⟨⟨⟨by decide, heven, by decide⟩, by decide⟩, rfl⟩ ?_
    exact .refl _
  exact ⟨_, hrun, rfl, addr_range_map_decodes hrun⟩

/-- The third range starts between the two others and reaches into the second, which `find` does not
look at: it is inserted, and address 10 has two ranges. -/
theorem insert_misses_later_range :
    ∃ m : AddrRangeMap ℕ, Runs (Within AddrRangeMap.step Anytime) .empty
        [.insert { _start := 0, _end := 1 } 0, .insert { _start := 10, _end := 20 } 1,
          .insert { _start := 5, _end := 15 } 2] m ∧
      m.tree.map Prod.snd = [0, 2, 1] ∧ (m.tree.map fun e => e.1.contains 10) =
        [.ok false, .ok true, .ok true] :=
  exists_runs_of_execWithin (by decide +kernel)
