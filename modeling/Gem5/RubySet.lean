/-
# Ruby's `Set`

`Set` (`src/mem/ruby/common/Set.hh`, `Set.cc`) keeps a subset of `{0, .., n-1}` in
an array of `unsigned long` words; `NetDest` is made of such sets.  The model is
that of a 64-bit host: a set of size `n` is a vector of `m_nArrayLen` words of 64
bits, and an access outside the vector is `none`.  All sets of a computation have
one size, so the assertions on equal sizes hold by typing.

* `SetOp.exec`     — the mutators, on a family of set variables.
* `SetOp.apply`    — the same operations on finite sets.
* `RubySet.Agrees` — the observers return what they return on the finite set.
* `RefinesFinset`  — a program on sets runs like the program on finite sets.

The three layout constants do not fit together: `LONG_BITS` is 65, so that
`INDEX_SHIFT` is 5 and every word holds 32 elements only, while `m_nArrayLen`
counts words of 65 elements.  Whether the memory is the static array or a
dynamic one makes no difference here: `setSize` has `m_nArrayLen` words in both
cases.
-/
import Mathlib

open Function

/-! ## The layout -/

/-- `std::numeric_limits<unsigned long>::digits` on a 64-bit host. -/
def unsignedLongDigits : ℕ := 64

def LONG_BITS : ℕ := unsignedLongDigits + 1

def INDEX_SHIFT : ℕ := if LONG_BITS = 64 then 6 else 5

def INDEX_MASK : ℕ := (1 <<< INDEX_SHIFT) - 1

/-- `m_nArrayLen` of a set of size `n` (`Set::setSize`). -/
def nArrayLen (n : ℕ) : ℕ := (n + LONG_BITS - 1) / LONG_BITS

/-- A set of size `n`: its words. -/
structure RubySet (n : ℕ) where
  nArray : Vector (BitVec 64) (nArrayLen n)
  deriving DecidableEq

/-! ## The loops over the bits of a word -/

/-- The inner loop of `Set::count`. -/
def countLoop : ℕ → BitVec 64 → BitVec 64 → ℕ
  | 0, _, _ => 0
  | j + 1, w, mask => (if w &&& mask ≠ 0 then 1 else 0) + countLoop j w (mask <<< 1)

/-- The inner loop of `Set::smallestElement`. -/
def smallestLoop : ℕ → ℕ → BitVec 64 → Option ℕ
  | 0, _, _ => none
  | k + 1, j, x => if x &&& 1 ≠ 0 then some j else smallestLoop k (j + 1) (x >>> 1)

/-- The loop of `Set::clearExcess`. -/
def clearExcessLoop : ℕ → BitVec 64 → BitVec 64 → BitVec 64
  | 0, _, w => w
  | k + 1, mask, w => clearExcessLoop k (mask >>> 1) (w &&& mask)

/-- The last loop of `Set::isBroadcast`. -/
def isBroadcastLoop : ℕ → BitVec 64 → BitVec 64 → Bool
  | 0, _, _ => true
  | j + 1, mask, w => if mask &&& w = 0 then false else isBroadcastLoop j (mask <<< 1) w

theorem getLsbD_one_shiftLeft (j m : ℕ) :
    (1#64 <<< m).getLsbD j = decide (j = m ∧ j < 64) := by
  by_cases h : j < 64 <;> by_cases h' : j = m <;> simp_all
  omega

variable (w : BitVec 64)

/-- A word and a one-bit mask meet if and only if the word has that bit. -/
theorem and_one_shiftLeft_ne_zero (m : ℕ) :
    w &&& 1#64 <<< m ≠ 0 ↔ w.getLsbD m = true := by
  constructor
  · intro h
    by_contra hm
    apply h
    apply BitVec.eq_of_getLsbD_eq
    intro j hj
    rw [BitVec.getLsbD_and, getLsbD_one_shiftLeft]
    rcases eq_or_ne j m with rfl | hjm
    · simp [hm]
    · simp [hjm]
  · intro h h0
    have hm : m < 64 := BitVec.lt_of_getLsbD h
    have hb : (w &&& 1#64 <<< m).getLsbD m = true := by
      rw [BitVec.getLsbD_and, h]
      simp [hm]
    rw [h0] at hb
    simp at hb

theorem countLoop_eq (k : ℕ) : ∀ m,
    countLoop k w (1#64 <<< m) = ((Finset.Ico m (m + k)).filter fun j => w.getLsbD j).card := by
  induction k with
  | zero => simp [countLoop]
  | succ k ih =>
    intro m
    have hshift : 1#64 <<< m <<< 1 = 1#64 <<< (m + 1) := by
      rw [← BitVec.shiftLeft_add]
    have hIco : Finset.Ico m (m + (k + 1)) = insert m (Finset.Ico (m + 1) (m + 1 + k)) := by
      ext j
      simp only [Finset.mem_Ico, Finset.mem_insert]
      omega
    rw [countLoop, hshift, ih (m + 1), hIco, Finset.filter_insert]
    simp only [and_one_shiftLeft_ne_zero]
    split
    · rw [Finset.card_insert_of_notMem (by simp), add_comm]
    · rw [zero_add]

theorem smallestLoop_eq_some (m : ℕ) (k : ℕ) : ∀ j,
    j ≤ m → m < j + k → w.getLsbD m = true → (∀ i, j ≤ i → i < m → w.getLsbD i = false) →
      smallestLoop k j (w >>> j) = some m := by
  induction k with
  | zero => omega
  | succ k ih =>
    intro j hjm hmk hm hbelow
    have hbit : (w >>> j) &&& 1 ≠ 0 ↔ w.getLsbD j = true := by
      have h := and_one_shiftLeft_ne_zero (w >>> j) 0
      simpa [BitVec.getLsbD_ushiftRight] using h
    rw [smallestLoop]
    simp only [hbit]
    rcases eq_or_ne j m with rfl | hj
    · simp [hm]
    · rw [hbelow j le_rfl (by omega)]
      exact ih (j + 1) (by omega) (by omega) hm fun i hi him => hbelow i (by omega) him

theorem getLsbD_clearExcessLoop (k j : ℕ) : ∀ mask w,
    (clearExcessLoop k mask w).getLsbD j = true ↔
      w.getLsbD j = true ∧ ∀ i < k, mask.getLsbD (j + i) = true := by
  induction k with
  | zero => simp [clearExcessLoop]
  | succ k ih =>
    intro mask w
    rw [clearExcessLoop, ih, BitVec.getLsbD_and, Nat.forall_lt_succ_left]
    simp only [Bool.and_eq_true, BitVec.getLsbD_ushiftRight, add_zero, and_assoc,
      show ∀ i, 1 + (j + i) = j + (i + 1) from fun i => by omega]

theorem isBroadcastLoop_eq (k : ℕ) : ∀ m,
    isBroadcastLoop k (1#64 <<< m) w = true ↔ ∀ j, m ≤ j → j < m + k → w.getLsbD j = true := by
  induction k with
  | zero => simp only [isBroadcastLoop, true_iff]; omega
  | succ k ih =>
    intro m
    have hshift : 1#64 <<< m <<< 1 = 1#64 <<< (m + 1) := by
      rw [← BitVec.shiftLeft_add]
    have hzero : 1#64 <<< m &&& w = 0 ↔ ¬ w.getLsbD m = true := by
      rw [BitVec.and_comm, ← and_one_shiftLeft_ne_zero, not_not]
    rw [isBroadcastLoop, hshift]
    simp only [hzero]
    by_cases hm : w.getLsbD m = true
    · simp only [hm, not_true_eq_false, if_false, ih (m + 1)]
      constructor
      · intro h j hj hjk
        rcases eq_or_lt_of_le hj with rfl | hlt
        · exact hm
        · exact h j hlt (by omega)
      · intro h j hj hjk
        exact h j (by omega) (by omega)
    · simp only [hm, not_false_eq_true, if_true, Bool.false_eq_true, false_iff]
      intro h
      exact hm (h m le_rfl (by omega))

/-! ## The operations -/

namespace RubySet

variable {n : ℕ}

/-- `Set::setSize`, which the constructor calls: all words are cleared. -/
def setSize (n : ℕ) : RubySet n := ⟨Vector.replicate _ 0⟩

variable (s : RubySet n)

/-- Change the word `m_p_nArray[k]`. -/
def modifyWord (k : ℕ) (f : BitVec 64 → BitVec 64) : Option (RubySet n) :=
  if h : k < nArrayLen n then some ⟨s.nArray.set k (f s.nArray[k]) h⟩ else none

def add (index : ℕ) : Option (RubySet n) :=
  s.modifyWord (index >>> INDEX_SHIFT) (· ||| 1#64 <<< (index &&& INDEX_MASK))

def remove (index : ℕ) : Option (RubySet n) :=
  s.modifyWord (index >>> INDEX_SHIFT) (· &&& ~~~(1#64 <<< (index &&& INDEX_MASK)))

def addSet (s t : RubySet n) : RubySet n := ⟨s.nArray.zipWith (· ||| ·) t.nArray⟩

def removeSet (s t : RubySet n) : RubySet n := ⟨s.nArray.zipWith (fun a b => a &&& ~~~b) t.nArray⟩

def clear : RubySet n := ⟨s.nArray.map fun _ => 0⟩

def clearExcess : Option (RubySet n) :=
  if n % LONG_BITS ≠ 0 then
    s.modifyWord (nArrayLen n - 1)
      (clearExcessLoop (64 - (n &&& INDEX_MASK)) 0x7FFFFFFFFFFFFFFF#64)
  else some s

def broadcast : Option (RubySet n) :=
  clearExcess ⟨s.nArray.map fun _ => BitVec.allOnes 64⟩

def OR (s t : RubySet n) : RubySet n := ⟨s.nArray.zipWith (· ||| ·) t.nArray⟩

def AND (s t : RubySet n) : RubySet n := ⟨s.nArray.zipWith (· &&& ·) t.nArray⟩

/-- `operator=`: the words are copied. -/
def assign (_ t : RubySet n) : RubySet n := ⟨t.nArray⟩

def isElement (element : ℕ) : Option Bool :=
  if h : element >>> INDEX_SHIFT < nArrayLen n then
    some (decide (s.nArray[element >>> INDEX_SHIFT] &&& 1#64 <<< (element &&& INDEX_MASK) ≠ 0))
  else none

def count : ℕ :=
  ((List.finRange (nArrayLen n)).map fun i => countLoop LONG_BITS s.nArray[i] 1#64).sum

/-- The set must not be empty (`assert(count() > 0)`). -/
def smallestElement : Option ℕ :=
  (List.finRange (nArrayLen n)).findSome? fun i =>
    if s.nArray[i] ≠ 0#64 then (smallestLoop LONG_BITS 0 s.nArray[i]).map (LONG_BITS * i.val + ·)
    else none

def isEqual (s t : RubySet n) : Bool :=
  decide (∀ i : Fin (nArrayLen n), s.nArray[i] = t.nArray[i])

def isSuperset (s test : RubySet n) : Bool :=
  decide (∀ i : Fin (nArrayLen n),
    (test.nArray[i] &&& s.nArray[i]) ||| ~~~test.nArray[i] = BitVec.allOnes 64)

def intersectionIsEmpty (s t : RubySet n) : Bool :=
  decide (∀ i : Fin (nArrayLen n), s.nArray[i] &&& t.nArray[i] = 0#64)

def isEmpty : Bool := decide (∀ i : Fin (nArrayLen n), s.nArray[i] = 0#64)

def isBroadcast : Option Bool :=
  let max := if n % LONG_BITS = 0 then nArrayLen n else nArrayLen n - 1
  if ∀ i : Fin (nArrayLen n), i.val < max → s.nArray[i] = BitVec.allOnes 64 then
    if n % LONG_BITS = 0 then some true
    else s.nArray[nArrayLen n - 1]?.map (isBroadcastLoop (n % LONG_BITS) 1#64)
  else some false

end RubySet

/-! ## Programs over sets -/

/-- One operation on the set variables `ι`; `OR x y z` is `x = y.OR(z)`. -/
inductive SetOp (ι : Type) (n : ℕ)
  | add (x : ι) (i : Fin n)
  | remove (x : ι) (i : Fin n)
  | addSet (x y : ι)
  | removeSet (x y : ι)
  | clear (x : ι)
  | broadcast (x : ι)
  | OR (x y z : ι)
  | AND (x y z : ι)
  | assign (x y : ι)

variable {ι : Type} [DecidableEq ι] {n : ℕ}

/-- The operation on the words; `none` if it reaches outside an array. -/
def SetOp.exec (env : ι → RubySet n) : SetOp ι n → Option (ι → RubySet n)
  | .add x i => ((env x).add i).map (Function.update env x)
  | .remove x i => ((env x).remove i).map (Function.update env x)
  | .addSet x y => some (Function.update env x ((env x).addSet (env y)))
  | .removeSet x y => some (Function.update env x ((env x).removeSet (env y)))
  | .clear x => some (Function.update env x (env x).clear)
  | .broadcast x => (env x).broadcast.map (Function.update env x)
  | .OR x y z => some (Function.update env x ((env y).OR (env z)))
  | .AND x y z => some (Function.update env x ((env y).AND (env z)))
  | .assign x y => some (Function.update env x ((env x).assign (env y)))

/-- The operation on finite sets. -/
def SetOp.apply (sets : ι → Finset (Fin n)) : SetOp ι n → ι → Finset (Fin n)
  | .add x i => Function.update sets x (insert i (sets x))
  | .remove x i => Function.update sets x ((sets x).erase i)
  | .addSet x y => Function.update sets x (sets x ∪ sets y)
  | .removeSet x y => Function.update sets x (sets x \ sets y)
  | .clear x => Function.update sets x ∅
  | .broadcast x => Function.update sets x Finset.univ
  | .OR x y z => Function.update sets x (sets y ∪ sets z)
  | .AND x y z => Function.update sets x (sets y ∩ sets z)
  | .assign x y => Function.update sets x (sets y)

/-- The observers of one set return what they return on the finite set. -/
structure RubySet.Agrees (s : RubySet n) (A : Finset (Fin n)) : Prop where
  isElement : ∀ i : Fin n, s.isElement i = some (decide (i ∈ A))
  count : s.count = A.card
  smallestElement : ∀ h : A.Nonempty, s.smallestElement = some (A.min' h).val
  isEmpty : s.isEmpty = decide (A = ∅)
  isBroadcast : s.isBroadcast = some (decide (A = Finset.univ))

/-- The observers of two sets return what they return on the finite sets. -/
structure RubySet.AgreesWith (s t : RubySet n) (A B : Finset (Fin n)) : Prop where
  isEqual : s.isEqual t = decide (A = B)
  isSuperset : s.isSuperset t = decide (B ⊆ A)
  intersectionIsEmpty : s.intersectionIsEmpty t = decide (Disjoint A B)

/-- The program reaches no word outside the arrays, and every observer of the sets it leaves
returns what it returns on the finite sets. -/
def RefinesFinset (ops : List (SetOp ι n)) : Prop :=
  ∃ env, ops.foldlM SetOp.exec (fun _ => RubySet.setSize n) = some env ∧
    (∀ x, (env x).Agrees (ops.foldl SetOp.apply (fun _ => ∅) x)) ∧
      ∀ x y, (env x).AgreesWith (env y) (ops.foldl SetOp.apply (fun _ => ∅) x)
        (ops.foldl SetOp.apply (fun _ => ∅) y)

/-! ## Sizes below 32: one word -/

/-- A set of size 1 to 31 has one word. -/
theorem nArrayLen_eq_one (h1 : 1 ≤ n) (h32 : n < 32) : nArrayLen n = 1 := by
  simp only [nArrayLen, LONG_BITS, unsignedLongDigits]
  omega

theorem nArrayLen_pos (h1 : 1 ≤ n) : 0 < nArrayLen n := by
  simp only [nArrayLen, LONG_BITS, unsignedLongDigits]
  omega

/-- An index below 32 lies in word 0, at the bit of its number. -/
theorem index_below {i : ℕ} (h : i < 32) : i >>> INDEX_SHIFT = 0 ∧ i &&& INDEX_MASK = i := by
  have hshift : INDEX_SHIFT = 5 := rfl
  have hmask : INDEX_MASK = 2 ^ 5 - 1 := rfl
  rw [hshift, hmask, Nat.and_two_pow_sub_one_eq_mod]
  omega

namespace RubySet

/-- The bits of every word are the elements of the finite set. -/
def Holds (s : RubySet n) (A : Finset (Fin n)) : Prop :=
  ∀ (k : ℕ) (hk : k < nArrayLen n) (j : ℕ),
    s.nArray[k].getLsbD j = true ↔ ∃ h : j < n, (⟨j, h⟩ : Fin n) ∈ A

variable {s t : RubySet n} {A B : Finset (Fin n)}

theorem holds_setSize (n : ℕ) : (setSize n).Holds ∅ := by
  intro k hk j
  simp [setSize]

theorem Holds.addSet (hs : s.Holds A) (ht : t.Holds B) : (s.addSet t).Holds (A ∪ B) := by
  intro k hk j
  simp only [RubySet.addSet, Vector.getElem_zipWith, BitVec.getLsbD_or, Bool.or_eq_true, hs k hk j,
    ht k hk j, Finset.mem_union, exists_or]

theorem Holds.removeSet (hs : s.Holds A) (ht : t.Holds B) : (s.removeSet t).Holds (A \ B) := by
  intro k hk j
  have hs := hs k hk j
  have ht := ht k hk j
  simp only [RubySet.removeSet, Vector.getElem_zipWith, BitVec.getLsbD_and, BitVec.getLsbD_not,
    Bool.and_eq_true, Bool.not_eq_true', decide_eq_true_eq, Finset.mem_sdiff]
  constructor
  · rintro ⟨ha, -, hb⟩
    obtain ⟨hj, hA⟩ := hs.mp ha
    refine ⟨hj, hA, fun hB => ?_⟩
    rw [ht.mpr ⟨hj, hB⟩] at hb
    cases hb
  · rintro ⟨hj, hA, hB⟩
    have ha := hs.mpr ⟨hj, hA⟩
    refine ⟨ha, BitVec.lt_of_getLsbD ha, ?_⟩
    rw [Bool.eq_false_iff]
    intro hb
    obtain ⟨_, hB'⟩ := ht.mp hb
    exact hB hB'

theorem Holds.AND (hs : s.Holds A) (ht : t.Holds B) : (s.AND t).Holds (A ∩ B) := by
  intro k hk j
  simp only [RubySet.AND, Vector.getElem_zipWith, BitVec.getLsbD_and, Bool.and_eq_true, hs k hk j,
    ht k hk j, Finset.mem_inter]
  constructor
  · rintro ⟨⟨hj, hA⟩, _, hB⟩
    exact ⟨hj, hA, hB⟩
  · rintro ⟨hj, hA, hB⟩
    exact ⟨⟨hj, hA⟩, hj, hB⟩

theorem holds_clear (s : RubySet n) : s.clear.Holds ∅ := by
  intro k hk j
  simp [RubySet.clear]

section Small

variable (h1 : 1 ≤ n) (h32 : n < 32)
include h1 h32

/-- Change word 0, the only one. -/
theorem Holds.modifyWord {f : BitVec 64 → BitVec 64} (hs : s.Holds A)
    (hf : ∀ w j, (w.getLsbD j = true ↔ ∃ h : j < n, (⟨j, h⟩ : Fin n) ∈ A) →
      ((f w).getLsbD j = true ↔ ∃ h : j < n, (⟨j, h⟩ : Fin n) ∈ B)) :
    ∃ t, s.modifyWord 0 f = some t ∧ t.Holds B := by
  have hlen := nArrayLen_eq_one h1 h32
  have h0 : 0 < nArrayLen n := by omega
  refine ⟨_, dif_pos h0, ?_⟩
  intro k hk j
  obtain rfl : k = 0 := by omega
  simp only [Vector.getElem_set_self]
  exact hf _ j (hs 0 h0 j)

theorem Holds.add (hs : s.Holds A) (i : Fin n) :
    ∃ t, s.add i = some t ∧ t.Holds (insert i A) := by
  obtain ⟨hword, hbit⟩ := index_below (show i.val < 32 by omega)
  rw [RubySet.add, hword, hbit]
  refine hs.modifyWord h1 h32 fun w j hw => ?_
  rw [BitVec.getLsbD_or, getLsbD_one_shiftLeft, Bool.or_eq_true, hw, decide_eq_true_eq]
  constructor
  · rintro (⟨hj, hA⟩ | ⟨rfl, -⟩)
    · exact ⟨hj, Finset.mem_insert_of_mem hA⟩
    · exact ⟨i.isLt, Finset.mem_insert_self _ _⟩
  · rintro ⟨hj, hmem⟩
    rcases Finset.mem_insert.mp hmem with hi | hA
    · exact .inr ⟨congrArg Fin.val hi, by omega⟩
    · exact .inl ⟨hj, hA⟩

theorem Holds.remove (hs : s.Holds A) (i : Fin n) :
    ∃ t, s.remove i = some t ∧ t.Holds (A.erase i) := by
  obtain ⟨hword, hbit⟩ := index_below (show i.val < 32 by omega)
  rw [RubySet.remove, hword, hbit]
  refine hs.modifyWord h1 h32 fun w j hw => ?_
  rw [BitVec.getLsbD_and, BitVec.getLsbD_not, getLsbD_one_shiftLeft, Bool.and_eq_true, hw]
  simp only [Bool.and_eq_true, Bool.not_eq_true', decide_eq_true_eq, decide_eq_false_iff_not,
    Finset.mem_erase]
  constructor
  · rintro ⟨⟨hj, hA⟩, h64, hne⟩
    exact ⟨hj, fun hi => hne ⟨congrArg Fin.val hi, h64⟩, hA⟩
  · rintro ⟨hj, hne, hA⟩
    exact ⟨⟨hj, hA⟩, by omega, fun ⟨hji, _⟩ => hne (Fin.ext hji)⟩

/-- `clearExcess` leaves the lowest `n` bits: its mask starts with 63 ones, loses one in
every round, and there are `64 - n` rounds. -/
theorem broadcast_eq (s : RubySet n) : ∃ t, s.broadcast = some t ∧ t.Holds Finset.univ := by
  have hlen := nArrayLen_eq_one h1 h32
  have hmod : n % LONG_BITS ≠ 0 := by
    simp only [LONG_BITS, unsignedLongDigits]
    omega
  have h0 : 0 < nArrayLen n := by omega
  rw [RubySet.broadcast, clearExcess, if_pos hmod, (index_below h32).2,
    show nArrayLen n - 1 = 0 by omega]
  refine ⟨_, dif_pos h0, ?_⟩
  intro k hk j
  obtain rfl : k = 0 := by omega
  have hmask : ∀ j, (0x7FFFFFFFFFFFFFFF#64).getLsbD j = decide (j < 63) := by
    intro j
    rw [show (0x7FFFFFFFFFFFFFFF#64) = BitVec.allOnes 64 >>> 1 from rfl,
      BitVec.getLsbD_ushiftRight, BitVec.getLsbD_allOnes]
    simp only [decide_eq_decide]
    omega
  simp only [Vector.getElem_set_self, Vector.getElem_map, getLsbD_clearExcessLoop,
    BitVec.getLsbD_allOnes, decide_eq_true_eq, hmask, Finset.mem_univ, exists_prop, and_true]
  constructor
  · rintro ⟨-, hj⟩
    have := hj (63 - n) (by omega)
    omega
  · intro hj
    exact ⟨by omega, fun i hi => by omega⟩


/-- A loop over the words sees word 0 only. -/
theorem finRange_nArrayLen (h0 : 0 < nArrayLen n) :
    List.finRange (nArrayLen n) = [⟨0, h0⟩] := by
  have hlen := nArrayLen_eq_one h1 h32
  apply List.ext_getElem
  · simp [hlen]
  · intro i hi _
    have : i = 0 := by
      rw [List.length_finRange] at hi
      omega
    subst this
    simp

theorem forall_word {P : Fin (nArrayLen n) → Prop} (h0 : 0 < nArrayLen n) :
    (∀ i, P i) ↔ P ⟨0, h0⟩ := by
  have hlen := nArrayLen_eq_one h1 h32
  refine ⟨fun h => h _, fun h i => ?_⟩
  rwa [show i = ⟨0, h0⟩ from Fin.ext (by omega)]

section

variable (hs : s.Holds A)

include hs

/-- The bits of the word, as a set of numbers. -/
theorem Holds.bits (h0 : 0 < nArrayLen n) :
    ((Finset.Ico 0 (0 + LONG_BITS)).filter fun j => s.nArray[0].getLsbD j = true) =
      A.map Fin.valEmbedding := by
  ext j
  simp only [Finset.mem_filter, Finset.mem_Ico, hs 0 h0 j, Finset.mem_map, Fin.valEmbedding_apply]
  constructor
  · rintro ⟨-, hj, hA⟩
    exact ⟨_, hA, rfl⟩
  · rintro ⟨i, hA, rfl⟩
    have hlong : LONG_BITS = 65 := rfl
    exact ⟨⟨Nat.zero_le _, by omega⟩, i.isLt, hA⟩

theorem Holds.count_eq : s.count = A.card := by
  have h0 := nArrayLen_pos h1
  rw [RubySet.count, finRange_nArrayLen h1 h32 h0]
  have hloop := countLoop_eq s.nArray[0] LONG_BITS 0
  rw [hs.bits h1 h32 h0] at hloop
  simpa using hloop

omit h1 h32 in
theorem Holds.word_eq_zero_iff (h0 : 0 < nArrayLen n) :
    s.nArray[0] = 0#64 ↔ A = ∅ := by
  constructor
  · intro hz
    rw [Finset.eq_empty_iff_forall_notMem]
    intro i hi
    have hbit := (hs 0 h0 i.val).mpr ⟨i.isLt, hi⟩
    rw [hz] at hbit
    simp at hbit
  · rintro rfl
    apply BitVec.eq_of_getLsbD_eq
    intro j _
    have hbit := hs 0 h0 j
    simp only [Finset.notMem_empty, exists_false, iff_false, Bool.not_eq_true] at hbit
    simp [hbit]

theorem Holds.smallestElement_eq (hA : A.Nonempty) :
    s.smallestElement = some (A.min' hA).val := by
  have h0 := nArrayLen_pos h1
  have hne : s.nArray[0] ≠ 0#64 := by
    intro hz
    exact hA.ne_empty ((hs.word_eq_zero_iff h0).mp hz)
  have hmin : s.nArray[0].getLsbD (A.min' hA).val = true :=
    (hs 0 h0 _).mpr ⟨(A.min' hA).isLt, A.min'_mem hA⟩
  have hbelow : ∀ i, 0 ≤ i → i < (A.min' hA).val → s.nArray[0].getLsbD i = false := by
    intro i _ hi
    rw [Bool.eq_false_iff]
    intro hbit
    obtain ⟨hin, hiA⟩ := (hs 0 h0 i).mp hbit
    have := A.min'_le _ hiA
    exact absurd (Fin.le_def.mp this) (by simpa using hi)
  have hlong : LONG_BITS = 65 := rfl
  have hloop := smallestLoop_eq_some s.nArray[0] (A.min' hA).val LONG_BITS 0 (Nat.zero_le _)
    (by omega) hmin hbelow
  rw [RubySet.smallestElement, finRange_nArrayLen h1 h32 h0]
  simp only [BitVec.ushiftRight_zero] at hloop
  simp [hne, hloop]

theorem Holds.isElement_eq (i : Fin n) :
    s.isElement i = some (decide (i ∈ A)) := by
  have h0 := nArrayLen_pos h1
  obtain ⟨hword, hbit⟩ := index_below (show i.val < 32 by omega)
  unfold RubySet.isElement
  simp only [hword, hbit, dif_pos h0, and_one_shiftLeft_ne_zero, hs 0 h0 i.val]
  simp

theorem Holds.isBroadcast_eq :
    s.isBroadcast = some (decide (A = Finset.univ)) := by
  have hlen := nArrayLen_eq_one h1 h32
  have h0 : 0 < nArrayLen n := by omega
  have hmod : n % LONG_BITS = n := by
    simp only [LONG_BITS, unsignedLongDigits]
    omega
  have hloop := isBroadcastLoop_eq s.nArray[0] n 0
  have hiff : isBroadcastLoop n 1#64 s.nArray[0] = true ↔ A = Finset.univ := by
    rw [show (1#64) = 1#64 <<< 0 from rfl, hloop, Finset.eq_univ_iff_forall]
    constructor
    · intro h i
      exact ((hs 0 h0 i.val).mp (h i (Nat.zero_le _) (by omega))).2
    · intro h j _ hj
      exact (hs 0 h0 j).mpr ⟨by omega, h _⟩
  unfold RubySet.isBroadcast
  simp only [hmod, show n ≠ 0 by omega, if_false, show nArrayLen n - 1 = 0 by omega,
    not_lt_zero, false_implies, implies_true, if_true, h0, Vector.getElem?_eq_getElem,
    Option.map_some]
  rw [Option.some.injEq, Bool.eq_iff_iff, hiff, decide_eq_true_eq]

theorem Holds.agrees : s.Agrees A where
  isElement := hs.isElement_eq h1 h32
  count := hs.count_eq h1 h32
  smallestElement := hs.smallestElement_eq h1 h32
  isEmpty := by
    have h0 := nArrayLen_pos h1
    have hzero := hs.word_eq_zero_iff h0
    rw [RubySet.isEmpty, decide_eq_decide, forall_word h1 h32 h0]
    exact hzero
  isBroadcast := hs.isBroadcast_eq h1 h32

/-- A statement about all elements is one about all bits. -/
theorem Holds.forall_bits (ht : t.Holds B) {R : Prop → Prop → Prop}
    (hR : R False False) (h0 : 0 < nArrayLen n) :
    (∀ j < 64, R (s.nArray[0].getLsbD j = true) (t.nArray[0].getLsbD j = true)) ↔
      ∀ i : Fin n, R (i ∈ A) (i ∈ B) := by
  constructor
  · intro h i
    have hi := h i.val (by omega)
    simpa only [hs 0 h0 i.val, ht 0 h0 i.val, Fin.eta, i.isLt, exists_true_left] using hi
  · intro h j _
    rw [hs 0 h0 j, ht 0 h0 j]
    by_cases hj : j < n
    · simpa only [hj, exists_true_left] using h ⟨j, hj⟩
    · simpa only [hj, IsEmpty.exists_iff] using hR

theorem Holds.agreesWith (ht : t.Holds B) : s.AgreesWith t A B where
  isEqual := by
    have h0 := nArrayLen_pos h1
    have hbits := hs.forall_bits h1 h32 ht (R := (· ↔ ·)) Iff.rfl h0
    rw [RubySet.isEqual, decide_eq_decide, forall_word h1 h32 h0, Finset.ext_iff, ← hbits]
    simp only [Fin.getElem_fin, BitVec.eq_of_getLsbD_eq_iff]
    exact forall₂_congr fun j _ => Bool.eq_iff_iff
  isSuperset := by
    have h0 := nArrayLen_pos h1
    have hbits := hs.forall_bits h1 h32 ht (R := fun a b => b → a) id h0
    rw [RubySet.isSuperset, decide_eq_decide, forall_word h1 h32 h0, Finset.subset_iff, ← hbits]
    simp only [Fin.getElem_fin, BitVec.eq_of_getLsbD_eq_iff, BitVec.getLsbD_or, BitVec.getLsbD_and,
      BitVec.getLsbD_not, BitVec.getLsbD_allOnes]
    refine forall₂_congr fun j hj => ?_
    rw [decide_eq_true hj]
    cases s.nArray[0].getLsbD j <;> cases t.nArray[0].getLsbD j <;> decide
  intersectionIsEmpty := by
    have h0 := nArrayLen_pos h1
    have hbits := hs.forall_bits h1 h32 ht (R := fun a b => a → ¬ b) (fun h => h.elim) h0
    rw [RubySet.intersectionIsEmpty, decide_eq_decide, forall_word h1 h32 h0,
      Finset.disjoint_left, ← hbits]
    simp only [Fin.getElem_fin, BitVec.eq_of_getLsbD_eq_iff, BitVec.getLsbD_and]
    refine forall₂_congr fun j hj => ?_
    cases s.nArray[0].getLsbD j <;> cases t.nArray[0].getLsbD j <;> simp

end

end Small
end RubySet

/-! ## Refinement -/

/-- Every variable holds its set. -/
def Holding (env : ι → RubySet n) (sets : ι → Finset (Fin n)) : Prop := ∀ x, (env x).Holds (sets x)

section

variable {env : ι → RubySet n} {sets : ι → Finset (Fin n)}

theorem Holding.update {x : ι}
    {s : RubySet n} {A : Finset (Fin n)} (h : Holding env sets) (hs : s.Holds A) :
    Holding (update env x s) (update sets x A) := by
  intro y
  rcases eq_or_ne y x with rfl | hy
  · simpa using hs
  · simpa [hy] using h y

/-- One operation keeps to the arrays and acts on the sets held. -/
theorem Holding.exec (h1 : 1 ≤ n) (h32 : n < 32)
    (h : Holding env sets) (op : SetOp ι n) :
    ∃ env', op.exec env = some env' ∧ Holding env' (op.apply sets) := by
  cases op with
  | add x i =>
    obtain ⟨t, ht, hA⟩ := (h x).add h1 h32 i
    exact ⟨_, by simp [SetOp.exec, ht], h.update hA⟩
  | remove x i =>
    obtain ⟨t, ht, hA⟩ := (h x).remove h1 h32 i
    exact ⟨_, by simp [SetOp.exec, ht], h.update hA⟩
  | addSet x y => exact ⟨_, rfl, h.update ((h x).addSet (h y))⟩
  | removeSet x y => exact ⟨_, rfl, h.update ((h x).removeSet (h y))⟩
  | clear x => exact ⟨_, rfl, h.update (RubySet.holds_clear _)⟩
  | broadcast x =>
    obtain ⟨t, ht, hA⟩ := RubySet.broadcast_eq h1 h32 (env x)
    exact ⟨_, by simp [SetOp.exec, ht], h.update hA⟩
  | OR x y z => exact ⟨_, rfl, h.update ((h y).addSet (h z))⟩
  | AND x y z => exact ⟨_, rfl, h.update ((h y).AND (h z))⟩
  | assign x y => exact ⟨_, rfl, h.update (h y)⟩

theorem Holding.foldlM (h1 : 1 ≤ n)
    (h32 : n < 32) (h : Holding env sets) (ops : List (SetOp ι n)) :
    ∃ env', ops.foldlM SetOp.exec env = some env' ∧ Holding env' (ops.foldl SetOp.apply sets) := by
  induction ops generalizing env sets with
  | nil => exact ⟨env, rfl, h⟩
  | cons op ops ih =>
    obtain ⟨env', hop, h'⟩ := h.exec h1 h32 op
    obtain ⟨env'', hops, h''⟩ := ih h'
    refine ⟨env'', ?_, h''⟩
    rw [List.foldlM_cons, hop]
    exact hops

end

/-- From size 33 on, the last element lies behind the array. -/
theorem nArrayLen_le_index (h : 33 ≤ n) : nArrayLen n ≤ (n - 1) >>> INDEX_SHIFT := by
  have hshift : INDEX_SHIFT = 5 := rfl
  rw [hshift]
  simp only [nArrayLen, LONG_BITS, unsignedLongDigits]
  omega

/-- With size 32, `clearExcess` runs 64 rounds and clears the whole word. -/
theorem broadcast_size_32 :
    (RubySet.setSize 32).broadcast = some (RubySet.setSize 32) := by
  decide +kernel

/-- **`Set` refines finite sets exactly for the sizes below 32.** -/
theorem set_refines_finset_iff [Inhabited ι] (h1 : 1 ≤ n) :
    (∀ ops : List (SetOp ι n), RefinesFinset ops) ↔ n < 32 := by
  constructor
  · intro h
    by_contra hn
    rcases eq_or_lt_of_le (Nat.le_of_not_lt hn) with rfl | hlt
    · -- size 32: a broadcast set is empty
      obtain ⟨env, henv, hag, -⟩ := h [.broadcast default]
      have hset : env default = RubySet.setSize 32 := by
        simp only [List.foldlM_cons, List.foldlM_nil, SetOp.exec, broadcast_size_32] at henv
        rw [← Option.some.inj henv]
        exact update_self _ _ _
      have hzero := (hag default).isElement 0
      rw [hset] at hzero
      exact absurd hzero (by simp [SetOp.apply, RubySet.isElement, RubySet.setSize])
    · -- larger sizes: the last element cannot be added
      obtain ⟨env, henv, -⟩ := h [.add default ⟨n - 1, by omega⟩]
      have hlen := nArrayLen_le_index hlt
      simp [SetOp.exec, RubySet.add, RubySet.modifyWord, not_lt.mpr hlen] at henv
  · intro h32 ops
    obtain ⟨env, henv, hold⟩ :=
      Holding.foldlM h1 h32 (fun _ : ι => RubySet.holds_setSize n) ops
    exact ⟨env, henv, fun x => (hold x).agrees h1 h32,
      fun x y => (hold x).agreesWith h1 h32 (hold y)⟩

/-- A set of size 33 has one word, but element 32 is looked for in a second one; a set of size
32 is empty after `broadcast`. -/
theorem set_not_refines_finset :
    (RubySet.setSize 33).add 32 = none ∧
      ((RubySet.setSize 32).broadcast.bind fun s => s.isElement 0) = some false := by
  decide +kernel

theorem set_refines_finset_iff_four :
    (∀ ops : List (SetOp ℕ 4), RefinesFinset ops) ↔ 4 < 32 :=
  set_refines_finset_iff (by decide)
