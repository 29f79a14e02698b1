/-
# Pseudo-LRU replacement

`PseudoLRUPolicy` (`src/mem/ruby/structures/PseudoLRUPolicy.hh`): each set of a
cache has a `uint64` whose bits are a binary tree over the ways, the children of
bit `t` being the bits `2 * t + 1` and `2 * t + 2`.  `touch` writes the bits of
the way along its path, `getVictim` goes against the bits.  The tree is over the
next power of two of the associativity, so a victim behind the last way is
replaced by the last way.

Sets and ways are natural numbers here; negative ones fail the same assertions.
The times of the last references, which neither function reads, are left out.

* `subtree`      — the bits of a `uint64` as a `VictimTree`.
* `VictimChoice` — what the policy promises.
-/
import Gem5.TransitionSystem
import Gem5.VictimTree
import Mathlib

open List

/-! ## The policy -/

structure PseudoLRUPolicy where
  numSets : ℕ
  assoc : ℕ
  effectiveAssoc : ℕ
  numLevels : ℕ
  trees : List (BitVec 64)
  deriving DecidableEq, Repr

/-- `while (m_effective_assoc < assoc) m_effective_assoc <<= 1`, in at most so many rounds. -/
def growAssoc (assoc : ℕ) : ℕ → ℕ → ℕ
  | 0, effective => effective
  | rounds + 1, effective =>
    if effective < assoc then growAssoc assoc rounds (effective * 2) else effective

/-- The loop that halves the associativity down to 0 and counts the levels. -/
def countLevels : ℕ → ℕ → ℕ → ℕ
  | 0, _, levels => levels
  | rounds + 1, assoc, levels =>
    if assoc / 2 = 0 then levels else countLevels rounds (assoc / 2) (levels + 1)

namespace PseudoLRUPolicy

def create (numSets assoc : ℕ) : Except Abort PseudoLRUPolicy :=
  if 0 < numSets ∧ 1 < assoc ∧ assoc ≤ 32 then
    let effectiveAssoc := growAssoc assoc assoc 1
    let numLevels := countLevels effectiveAssoc effectiveAssoc 0
    if numLevels < 16 then
      .ok { numSets, assoc, effectiveAssoc, numLevels, trees := List.replicate numSets 0 }
    else .error .assertion
  else .error .assertion

/-- `1 << tree_index`, an `int`, as it is converted to `uint64`. -/
def bitAt (treeIndex : ℕ) : BitVec 64 := (1#32 <<< treeIndex).signExtend 64

/-- `~(1 << tree_index)`, an `int`, as it is converted to `uint64`. -/
def maskAt (treeIndex : ℕ) : BitVec 64 := (~~~(1#32 <<< treeIndex)).signExtend 64

/-- The loop of `touch`: levels still to go, and the node. -/
def touchWalk (index : ℕ) : ℕ → ℕ → BitVec 64 → BitVec 64
  | 0, _, tree => tree
  | i + 1, treeIndex, tree =>
    if index.testBit i then touchWalk index i (treeIndex * 2 + 2) (tree ||| bitAt treeIndex)
    else touchWalk index i (treeIndex * 2 + 1) (tree &&& maskAt treeIndex)

variable (p : PseudoLRUPolicy)

def touch (set index : ℕ) : Except Abort PseudoLRUPolicy :=
  if index < p.assoc ∧ set < p.numSets then
    .ok { p with trees := p.trees.modify set (touchWalk index p.numLevels 0) }
  else .error .assertion

/-- The loop of `getVictim`: rounds still to go, the round, the node and the index so far. -/
def victimWalk (effectiveAssoc : ℕ) (tree : BitVec 64) : ℕ → ℕ → ℕ → ℕ → ℕ
  | 0, _, _, index => index
  | rounds + 1, i, treeIndex, index =>
    if tree.getLsbD treeIndex then
      victimWalk effectiveAssoc tree rounds (i + 1) (treeIndex * 2 + 1) index
    else
      victimWalk effectiveAssoc tree rounds (i + 1) (treeIndex * 2 + 2)
        (index + effectiveAssoc >>> (i + 1))

def getVictim (set : ℕ) : Except Abort ℕ :=
  match p.trees[set]? with
  | none => .error .undefined
  | some tree =>
    let index := victimWalk p.effectiveAssoc tree p.numLevels 0 0 0
    if index < p.effectiveAssoc then
      .ok (if index > p.assoc - 1 then p.assoc - 1 else index)
    else .error .assertion

/-! ## What it promises -/

/-- `touch(set, way)` for all the pairs, in order. -/
def touchAll (calls : List (ℕ × ℕ)) : Except Abort PseudoLRUPolicy :=
  calls.foldlM (fun p call => p.touch call.1 call.2) p

/-- The way of the set that was touched last. -/
def lastTouched (calls : List (ℕ × ℕ)) (set : ℕ) : Option ℕ :=
  (calls.filter fun call => call.1 = set).getLast?.map Prod.snd

/-- `w = getVictim(set); touch(set, w)` a number of times, with the ways. -/
def replace (p : PseudoLRUPolicy) (set : ℕ) : ℕ → Except Abort (List ℕ × PseudoLRUPolicy)
  | 0 => .ok ([], p)
  | rounds + 1 => do
    let way ← p.getVictim set
    let q ← p.touch set way
    let (ways, r) ← q.replace set rounds
    pure (way :: ways, r)

/-- **Victim choice** by the policy of a new cache: after every sequence of touches, and from every
state of the trees. -/
structure VictimChoice (p : PseudoLRUPolicy) : Prop where
  touches : ∀ calls : List (ℕ × ℕ), (∀ call ∈ calls, call.1 < p.numSets ∧ call.2 < p.assoc) →
    ∃ q, p.touchAll calls = .ok q ∧ ∀ set < p.numSets, ∃ way, q.getVictim set = .ok way ∧
      way < p.assoc ∧ lastTouched calls set ≠ some way
  rounds : ∀ trees, trees.length = p.numSets → (∃ n, p.assoc = 2 ^ n) → ∀ set < p.numSets,
    ∃ ways q, replace { p with trees := trees } set p.assoc = .ok (ways, q) ∧
      ways.Perm (List.range p.assoc)
  others : ∀ trees, trees.length = p.numSets → ∀ set way q,
    touch { p with trees := trees } set way = .ok q → ∀ other, other ≠ set →
      q.getVictim other = getVictim { p with trees := trees } other

end PseudoLRUPolicy

/-! ## Bits as a tree -/

/-- The tree below a node. -/
def subtree (bits : ℕ → Bool) : (n : ℕ) → ℕ → VictimTree n
  | 0, _ => .leaf
  | n + 1, t => .node (bits t) (subtree bits n (t * 2 + 1)) (subtree bits n (t * 2 + 2))

/-- The nodes below a node, itself included: halving leads up the tree. -/
def Below (t j : ℕ) : Prop := ∃ d, (j + 1) / 2 ^ d = t + 1

theorem Below.self (t : ℕ) : Below t t := ⟨0, by simp⟩

theorem Below.left {t j : ℕ} (h : Below (t * 2 + 1) j) : Below t j := by
  obtain ⟨d, hd⟩ := h
  exact ⟨d + 1, by rw [pow_succ, ← Nat.div_div_eq_div_mul]; omega⟩

theorem Below.right {t j : ℕ} (h : Below (t * 2 + 2) j) : Below t j := by
  obtain ⟨d, hd⟩ := h
  exact ⟨d + 1, by rw [pow_succ, ← Nat.div_div_eq_div_mul]; omega⟩

theorem Below.le {t j : ℕ} (h : Below t j) : t ≤ j := by
  obtain ⟨d, hd⟩ := h
  have := Nat.div_le_self (j + 1) (2 ^ d)
  omega

/-- Nothing is below both children. -/
theorem Below.disjoint {t j : ℕ} (h : Below (t * 2 + 1) j) : ¬ Below (t * 2 + 2) j := by
  rintro ⟨e, he⟩
  obtain ⟨d, hd⟩ := h
  rcases lt_trichotomy d e with hlt | heq | hgt
  · -- halving further makes the number smaller
    obtain ⟨c, rfl⟩ := Nat.exists_eq_add_of_lt hlt
    rw [add_assoc, pow_add, ← Nat.div_div_eq_div_mul, hd] at he
    have := Nat.div_le_self (t * 2 + 1 + 1) (2 ^ (c + 1))
    omega
  · subst heq
    omega
  · obtain ⟨c, rfl⟩ := Nat.exists_eq_add_of_lt hgt
    rw [add_assoc, pow_add, ← Nat.div_div_eq_div_mul, he, pow_succ',
      ← Nat.div_div_eq_div_mul] at hd
    have := Nat.div_le_self ((t * 2 + 2 + 1) / 2) (2 ^ c)
    omega

theorem subtree_congr {f g : ℕ → Bool} (n : ℕ) : ∀ t, (∀ j, Below t j → f j = g j) →
    subtree f n t = subtree g n t := by
  induction n with
  | zero => intro t _; rfl
  | succ n ih =>
    intro t h
    rw [subtree, subtree, h t (Below.self t), ih (t * 2 + 1) fun j hj => h j hj.left,
      ih (t * 2 + 2) fun j hj => h j hj.right]

namespace PseudoLRUPolicy

/-! ### The walks -/

theorem bitAt_eq {t : ℕ} (h : t < 31) : bitAt t = 1#64 <<< t := by
  interval_cases t <;> decide

theorem maskAt_eq {t : ℕ} (h : t < 31) : maskAt t = ~~~(1#64 <<< t) := by
  interval_cases t <;> decide

theorem getLsbD_or_bitAt {t : ℕ} (h : t < 31) (tree : BitVec 64) (j : ℕ) :
    (tree ||| bitAt t).getLsbD j = (tree.getLsbD j || decide (j = t)) := by
  rw [bitAt_eq h]
  rcases eq_or_ne j t with rfl | hj
  · simp
    omega
  · simp [hj]
    omega

theorem getLsbD_and_maskAt {t : ℕ} (h : t < 31) (tree : BitVec 64) (j : ℕ) :
    (tree &&& maskAt t).getLsbD j = (tree.getLsbD j && !decide (j = t)) := by
  rw [maskAt_eq h, BitVec.getLsbD_and]
  by_cases hlt : j < 64
  · rcases eq_or_ne j t with rfl | hj
    · simp [hlt]
    · simp [hj, hlt]
      omega
  · rw [BitVec.getLsbD_of_ge tree j (by omega)]
    rfl

/-- `touch` writes below its node only. -/
theorem getLsbD_touchWalk_of_not_below (index i : ℕ) : ∀ (t : ℕ) (tree : BitVec 64) (j : ℕ),
    (t + 2) * 2 ^ i ≤ 64 → ¬ Below t j →
      (touchWalk index i t tree).getLsbD j = tree.getLsbD j := by
  induction i with
  | zero => intro t tree j _ _; rfl
  | succ i ih =>
    intro t tree j hfit hj
    have hne : j ≠ t := by
      rintro rfl
      exact hj (Below.self j)
    have hpos : 0 < 2 ^ i := Nat.two_pow_pos i
    rw [pow_succ] at hfit
    have ht : t < 31 := by nlinarith
    rw [touchWalk]
    split
    · rw [ih _ _ _ (by nlinarith) (mt Below.right hj), getLsbD_or_bitAt ht]
      simp [hne]
    · rw [ih _ _ _ (by nlinarith) (mt Below.left hj), getLsbD_and_maskAt ht]
      simp [hne]

/-- **`touch` on the bits is `touch` on the tree.** -/
theorem subtree_touchWalk (index i : ℕ) : ∀ (t : ℕ) (tree : BitVec 64), (t + 2) * 2 ^ i ≤ 64 →
    subtree (touchWalk index i t tree).getLsbD i t = (subtree tree.getLsbD i t).touch index := by
  induction i with
  | zero => intro t tree _; rfl
  | succ i ih =>
    intro t tree hfit
    have hpos : 0 < 2 ^ i := Nat.two_pow_pos i
    rw [pow_succ] at hfit
    have ht : t < 31 := by nlinarith
    have hleft : (t * 2 + 1 + 2) * 2 ^ i ≤ 64 := by nlinarith
    have hright : (t * 2 + 2 + 2) * 2 ^ i ≤ 64 := by nlinarith
    have hnot : ∀ {c}, t < c → ¬ Below c t := fun hc hb => absurd hb.le (by omega)
    rw [touchWalk, subtree, subtree, VictimTree.touch]
    split
    · congr 1
      · rw [getLsbD_touchWalk_of_not_below _ _ _ _ _ hright (hnot (by omega)), getLsbD_or_bitAt ht]
        simp
      · apply subtree_congr
        intro j hj
        rw [getLsbD_touchWalk_of_not_below _ _ _ _ _ hright hj.disjoint, getLsbD_or_bitAt ht]
        have := hj.le
        simp
        omega
      · rw [ih _ _ hright]
        congr 1
        apply subtree_congr
        intro j hj
        rw [getLsbD_or_bitAt ht]
        have := hj.le
        simp
        omega
    · congr 1
      · rw [getLsbD_touchWalk_of_not_below _ _ _ _ _ hleft (hnot (by omega)), getLsbD_and_maskAt ht]
        simp
      · rw [ih _ _ hleft]
        congr 1
        apply subtree_congr
        intro j hj
        rw [getLsbD_and_maskAt ht]
        have := hj.le
        simp
        omega
      · apply subtree_congr
        intro j hj
        rw [getLsbD_touchWalk_of_not_below _ _ _ _ _ hleft (fun hb => hb.disjoint hj),
          getLsbD_and_maskAt ht]
        have := hj.le
        simp
        omega

/-- **`getVictim` on the bits is the victim of the tree.** -/
theorem victimWalk_eq (tree : BitVec 64) (rounds : ℕ) : ∀ i t index,
    victimWalk (2 ^ (i + rounds)) tree rounds i t index =
      index + (subtree tree.getLsbD rounds t).victim := by
  induction rounds with
  | zero => intro i t index; rfl
  | succ rounds ih =>
    intro i t index
    have hpow : i + (rounds + 1) = (i + 1) + rounds := by omega
    have hhalf : 2 ^ (i + 1 + rounds) >>> (i + 1) = 2 ^ rounds := by
      rw [Nat.shiftRight_eq_div_pow, pow_add, Nat.mul_div_cancel_left _ (Nat.two_pow_pos _)]
    rw [victimWalk, hpow, ih, ih, subtree, VictimTree.victim]
    split
    · rfl
    · omega

/-! ### The policy as trees -/

/-- A policy over `2 ^ (n + 1)` ways, of which more than the left half are there. -/
structure Shaped (n : ℕ) (p : PseudoLRUPolicy) : Prop where
  lt_five : n < 5
  effectiveAssoc : p.effectiveAssoc = 2 ^ (n + 1)
  numLevels : p.numLevels = n + 1
  half_lt : 2 ^ n < p.assoc
  assoc_le : p.assoc ≤ 2 ^ (n + 1)
  trees : p.trees.length = p.numSets

/-- The tree of a set. -/
def treeOf (n : ℕ) (tree : BitVec 64) : VictimTree (n + 1) := subtree tree.getLsbD (n + 1) 0

variable {p q : PseudoLRUPolicy} {n : ℕ}

theorem treeOf_touchWalk (hn : n < 5) (index : ℕ) (tree : BitVec 64) :
    treeOf n (touchWalk index (n + 1) 0 tree) = (treeOf n tree).touch index := by
  apply subtree_touchWalk
  interval_cases n <;> decide

theorem exists_shaped_create {numSets assoc : ℕ} (hsets : 0 < numSets) (h2 : 2 ≤ assoc)
    (h32 : assoc ≤ 32) : ∃ p n, create numSets assoc = .ok p ∧ p.numSets = numSets ∧
      p.assoc = assoc ∧ Shaped n p := by
  have hloops : ∀ a < 33, 2 ≤ a → ∃ n < 5, growAssoc a a 1 = 2 ^ (n + 1) ∧
      countLevels (2 ^ (n + 1)) (2 ^ (n + 1)) 0 = n + 1 ∧ 2 ^ n < a ∧ a ≤ 2 ^ (n + 1) := by
    decide +kernel
  obtain ⟨n, hn, hgrow, hcount, hlt, hle⟩ := hloops assoc (by omega) h2
  refine ⟨⟨numSets, assoc, 2 ^ (n + 1), n + 1, replicate numSets 0⟩, n, ?_, rfl, rfl, ?_⟩
  · unfold create
    rw [if_pos ⟨hsets, h2, h32⟩]
    simp only [hgrow, hcount]
    rw [if_pos (by omega)]
  · exact ⟨hn, rfl, rfl, hlt, hle, length_replicate⟩

/-- What `touch` does in range. -/
theorem Shaped.touch (h : Shaped n p) {set index : ℕ} (hset : set < p.numSets)
    (hindex : index < p.assoc) : ∃ q, p.touch set index = .ok q ∧ Shaped n q ∧
      q.numSets = p.numSets ∧ q.assoc = p.assoc ∧
      q.trees = p.trees.modify set (touchWalk index (n + 1) 0) := by
  refine ⟨{ p with trees := p.trees.modify set (touchWalk index p.numLevels 0) }, ?_, ?_, rfl, rfl, ?_⟩
  · unfold PseudoLRUPolicy.touch
    rw [if_pos ⟨hindex, hset⟩]
  · obtain ⟨h1, h2, h3, h4, h5, h6⟩ := h
    exact ⟨h1, h2, h3, h4, h5, by simpa using h6⟩
  · rw [h.numLevels]

/-- What `getVictim` returns. -/
theorem Shaped.getVictim (h : Shaped n p) {set : ℕ} {tree : BitVec 64}
    (htree : p.trees[set]? = some tree) :
    p.getVictim set = .ok (min (treeOf n tree).victim (p.assoc - 1)) := by
  have hwalk : victimWalk p.effectiveAssoc tree p.numLevels 0 0 0 = (treeOf n tree).victim := by
    have := victimWalk_eq tree (n + 1) 0 0 0
    rw [zero_add, zero_add] at this
    rw [h.effectiveAssoc, h.numLevels, this]
    rfl
  have hlt := VictimTree.victim_lt (treeOf n tree)
  unfold PseudoLRUPolicy.getVictim
  rw [htree]
  simp only [hwalk]
  rw [if_pos (h.effectiveAssoc.symm ▸ hlt)]
  congr 1
  split <;> omega

/-- The victim is a way, and not the one that was touched last. -/
theorem Shaped.victim_lt (h : Shaped n p) (t : VictimTree (n + 1)) :
    min t.victim (p.assoc - 1) < p.assoc := by
  have hpos : 0 < p.assoc := (Nat.zero_le _).trans_lt h.half_lt
  omega

theorem Shaped.victim_touch_ne (h : Shaped n p) (t : VictimTree (n + 1)) {way : ℕ}
    (hway : way < p.assoc) : min (t.touch way).victim (p.assoc - 1) ≠ way := by
  have hhalf := h.half_lt
  have hlt : way < 2 ^ (n + 1) := hway.trans_le h.assoc_le
  have hne := t.victim_touch_ne hlt
  have hvictim := t.victim_touch_lt_iff way
  have hbit := VictimTree.testBit_iff_le hlt
  -- a victim behind the last way is in the right half, and then the way is not
  by_cases hclamp : (t.touch way).victim ≤ p.assoc - 1
  · rwa [min_eq_left hclamp]
  · have hleft : ¬ 2 ^ n ≤ way := by
      intro hle
      have := hvictim.mpr (hbit.mpr hle)
      omega
    omega

/-! ### Sequences of calls -/

theorem lastTouched_concat (calls : List (ℕ × ℕ)) (set way other : ℕ) :
    lastTouched (calls ++ [(set, way)]) other =
      if set = other then some way else lastTouched calls other := by
  unfold lastTouched
  by_cases h : set = other
  · simp [h]
  · simp [h]

/-- What a sequence of touches leaves: each set's tree was touched last at its last way. -/
theorem Shaped.touchAll (h : Shaped n p) (calls : List (ℕ × ℕ))
    (hcalls : ∀ call ∈ calls, call.1 < p.numSets ∧ call.2 < p.assoc) :
    ∃ q, p.touchAll calls = .ok q ∧ Shaped n q ∧ q.numSets = p.numSets ∧ q.assoc = p.assoc ∧
      ∀ set way, lastTouched calls set = some way → way < p.assoc ∧
        ∃ tree, q.trees[set]? = some (touchWalk way (n + 1) 0 tree) := by
  induction calls using reverseRecOn with
  | nil => exact ⟨p, rfl, h, rfl, rfl, fun set way hlast => by cases hlast⟩
  | append_singleton calls call ih =>
    obtain ⟨set, way⟩ := call
    obtain ⟨q, hq, hshaped, hsets, hassoc, hlast⟩ :=
      ih fun call hcall => hcalls call (mem_append_left _ hcall)
    obtain ⟨hset, hway⟩ : set < p.numSets ∧ way < p.assoc := hcalls (set, way) (by simp)
    obtain ⟨r, hr, hshaped', hsets', hassoc', htrees⟩ :=
      hshaped.touch (hsets.symm ▸ hset) (hassoc.symm ▸ hway)
    refine ⟨r, ?_, hshaped', hsets'.trans hsets, hassoc'.trans hassoc, ?_⟩
    · unfold PseudoLRUPolicy.touchAll at hq ⊢
      rw [foldlM_append, hq]
      simp [hr, bind, Except.bind, pure, Except.pure]
    · intro other w hw
      rw [lastTouched_concat] at hw
      rw [htrees]
      rcases eq_or_ne set other with rfl | heq
      · rw [if_pos rfl] at hw
        cases hw
        have hlt : set < q.trees.length := by
          rw [hshaped.trees, hsets]
          exact hset
        exact ⟨hway, q.trees[set], by rw [getElem?_modify_eq, getElem?_eq_getElem hlt]; rfl⟩
      · rw [if_neg heq] at hw
        rw [getElem?_modify_ne _ _ heq]
        exact hlast other w hw

/-- Taking and touching the victim goes through the visits of the tree, as long as no way is
missing. -/
theorem Shaped.replace (hfull : p.assoc = 2 ^ (n + 1)) {set : ℕ} (hset : set < p.numSets)
    (k : ℕ) : ∀ {q : PseudoLRUPolicy} {tree : BitVec 64}, Shaped n q → q.numSets = p.numSets →
      q.assoc = p.assoc → q.trees[set]? = some tree →
      ∃ r, q.replace set k = .ok ((treeOf n tree).visits k, r) := by
  induction k with
  | zero => intro q tree _ _ _ _; exact ⟨q, rfl⟩
  | succ k ih =>
    intro q tree h hsets hassoc htree
    have hlt := VictimTree.victim_lt (treeOf n tree)
    have hvictim : q.getVictim set = .ok (treeOf n tree).victim := by
      rw [h.getVictim htree, min_eq_left]
      omega
    have hway : (treeOf n tree).victim < q.assoc := by omega
    obtain ⟨r, hr, hshaped, hsets', hassoc', htrees⟩ := h.touch (hsets.symm ▸ hset) hway
    have htree' : r.trees[set]? = some (touchWalk (treeOf n tree).victim (n + 1) 0 tree) := by
      rw [htrees, getElem?_modify_eq, htree]
      rfl
    obtain ⟨s, hs⟩ := ih hshaped (hsets'.trans hsets) (hassoc'.trans hassoc) htree'
    rw [treeOf_touchWalk h.lt_five] at hs
    refine ⟨s, ?_⟩
    simp only [PseudoLRUPolicy.replace, hvictim, hr, hs, bind, Except.bind, pure, Except.pure]
    rfl

/-- A power of two is its own effective associativity. -/
theorem Shaped.eq_of_pow (h : Shaped n p) {m : ℕ} (hm : p.assoc = 2 ^ m) :
    p.assoc = 2 ^ (n + 1) := by
  have hlt := h.half_lt
  have hle := h.assoc_le
  rw [hm] at hlt hle ⊢
  have h1 := (Nat.pow_lt_pow_iff_right (by decide)).mp hlt
  have h2 := (Nat.pow_le_pow_iff_right (by decide)).mp hle
  rw [le_antisymm h2 h1]

theorem Shaped.victimChoice (h : Shaped n p) : p.VictimChoice where
  touches := by
    intro calls hcalls
    obtain ⟨q, hq, hshaped, hsets, hassoc, hlast⟩ := h.touchAll calls hcalls
    refine ⟨q, hq, fun set hset => ?_⟩
    have hlt : set < q.trees.length := by
      rw [hshaped.trees, hsets]
      exact hset
    refine ⟨_, hshaped.getVictim (getElem?_eq_getElem hlt), ?_, ?_⟩
    · exact hassoc ▸ hshaped.victim_lt _
    · generalize hway : min (treeOf n q.trees[set]).victim (q.assoc - 1) = way
      intro hlast'
      obtain ⟨hlt', tree, htree⟩ := hlast set way hlast'
      rw [getElem?_eq_getElem hlt] at htree
      rw [Option.some.inj htree, treeOf_touchWalk h.lt_five] at hway
      exact hshaped.victim_touch_ne (treeOf n tree) (hassoc.symm ▸ hlt') hway
  rounds := by
    rintro trees htrees ⟨m, hm⟩ set hset
    have hshaped : Shaped n { p with trees := trees } :=
      ⟨h.lt_five, h.effectiveAssoc, h.numLevels, h.half_lt, h.assoc_le, htrees⟩
    have hfull := h.eq_of_pow hm
    have hlt : set < trees.length := htrees.symm ▸ hset
    obtain ⟨r, hr⟩ := Shaped.replace hfull hset p.assoc hshaped rfl rfl
      (getElem?_eq_getElem hlt)
    refine ⟨_, r, hr, ?_⟩
    rw [hfull]
    exact VictimTree.visits_perm _
  others := by
    intro trees htrees set way q hq other hother
    unfold PseudoLRUPolicy.touch at hq
    split at hq
    · cases hq
      unfold PseudoLRUPolicy.getVictim
      rw [getElem?_modify_ne _ _ (Ne.symm hother)]
    · cases hq

end PseudoLRUPolicy

/-- **Tree pseudo-LRU.**  For every associativity and number of sets that the constructor accepts,
the victim is a way of the set other than the one touched last; with a power of two ways, taking
and touching victims visits every way once; and the sets are independent. -/
theorem pseudo_lru_victim_choice {numSets assoc : ℕ} (hsets : 0 < numSets) (h2 : 2 ≤ assoc)
    (h32 : assoc ≤ 32) : ∃ p, PseudoLRUPolicy.create numSets assoc = .ok p ∧
      p.numSets = numSets ∧ p.assoc = assoc ∧ p.VictimChoice := by
  obtain ⟨p, n, hp, hsets, hassoc, hshaped⟩ :=
    PseudoLRUPolicy.exists_shaped_create hsets h2 h32
  exact ⟨p, hp, hsets, hassoc, hshaped.victimChoice⟩

theorem pseudo_lru_victim_choice_six_ways : ∃ p, PseudoLRUPolicy.create 64 6 = .ok p ∧
    p.numSets = 64 ∧ p.assoc = 6 ∧ p.VictimChoice :=
  pseudo_lru_victim_choice (by decide) (by decide) (by decide)
