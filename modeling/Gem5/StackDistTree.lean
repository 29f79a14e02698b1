/-
# The tree of the stack distance calculator

The node `n` of layer `i` stands for the block of the leaves `x` with
`x / 2 ^ i = n`, and its sums are the leaves of the two halves
(`NodeOk`).  A node that is missing is used up: all its leaves have been added
and removed (`Exhausted`).  This holds on the way through `updateSum`, with the
layers below up to date and the ones above still to come (`updateSum_spec`), and
`updateTree` provides the nodes above the next leaf (`updateTree_spec`).  So the
calculator refines the naive stack (`Refines.call`).
-/
import Gem5.DyadicCount
import Gem5.StackDistCalc
import Mathlib

open Function

/-! ## The layers -/

namespace StackDist

/-- All leaves of the block are among the first `m`, and none of them is left. -/
def Exhausted (m : ℕ) (live : Finset ℕ) (i n : ℕ) : Prop :=
  (n + 1) * 2 ^ i ≤ m ∧ blockCount live i n = 0

/-- Node `n` of layer `i + 1`, in a tree with the root in layer `D`. -/
structure NodeOk (D m : ℕ) (live : Finset ℕ) (i n : ℕ) (node : Node) : Prop where
  nodeIndex : node.nodeIndex = n
  isLeftNode : node.isLeftNode = (n % 2 == 0)
  parent : node.parent = if i + 1 = D then none else some (i + 2, n / 2)
  sumLeft : node.sumLeft = blockCount live i (2 * n)
  sumRight : node.sumRight = blockCount live i (2 * n + 1)
  discardLeft : node.discardLeft = true → Exhausted m live i (2 * n)
  discardRight : node.discardRight = true → Exhausted m live i (2 * n + 1)

/-- What is at key `n` of layer `i + 1`: a node, or nothing once it is used up. -/
def SlotOk (D m : ℕ) (live : Finset ℕ) (i n : ℕ) : Option Node → Prop
  | some node => NodeOk D m live i n node
  | none => i + 1 < D ∧ Exhausted m live (i + 1) n

/-- The layers above the leaves.  Each of them may be up to date with a set of leaves of its own. -/
def LayersOk (D m : ℕ) (live : ℕ → Finset ℕ) (next : ℕ → ℕ) (t : Tree) : Prop :=
  ∀ i < D, ∀ n < next (i + 1), SlotOk D m (live i) i n (t (i + 1) n)

namespace Tree

@[simp]
theorem set_self (t : Tree) (i n : ℕ) (node : Option Node) : t.set i n node i n = node := by
  simp [set]

theorem set_layer_of_ne (t : Tree) {i j : ℕ} (n : ℕ) (node : Option Node) (h : j ≠ i) :
    t.set i n node j = t j := by
  simp [set, h]

theorem set_of_ne (t : Tree) {i j n k : ℕ} (node : Option Node) (h : (j, k) ≠ (i, n)) :
    t.set i n node j k = t j k := by
  rcases eq_or_ne j i with rfl | hj
  · have hk : k ≠ n := fun hk => h (by rw [hk])
    simp [set, hk]
  · rw [set_layer_of_ne t n node hj]

@[simp]
theorem set_set (t : Tree) (i n : ℕ) (a b : Option Node) :
    (t.set i n a).set i n b = t.set i n b := by
  simp [set]

theorem deref_eq {t : Tree} {i n : ℕ} {node : Node} (h : t i n = some node) :
    t.deref i n = .ok node := by
  rw [deref, h]

theorem pointer_eq {t : Tree} {i n : ℕ} {node : Node} (h : t i n = some node) :
    t.pointer i n = some (i, n) := by
  rw [pointer, h]
  rfl

end Tree

section Path

variable {D m r : ℕ} {live live' : Finset ℕ} {next : ℕ → ℕ} {t : Tree}

/-- A leaf that is there, or that is still to come, is in no block that is used up. -/
theorem not_exhausted (hr : r ∈ live ∨ m ≤ r) (i : ℕ) : ¬ Exhausted m live i (r / 2 ^ i) := by
  rintro ⟨hle, hzero⟩
  rcases hr with hr | hr
  · exact blockCount_eq_zero_iff.mp hzero r hr rfl
  · have hlt := Nat.lt_mul_div_succ r (Nat.two_pow_pos i)
    rw [mul_comm] at hlt
    omega

variable {i n j : ℕ} {o : Option Node} {node : Node}

theorem Exhausted.sameBut (h : SameBut r live live') (hnew : r ∈ live' → m ≤ r)
    (hex : Exhausted m live i n) : Exhausted m live' i n := by
  refine ⟨hex.1, blockCount_eq_zero_iff.mpr ?_⟩
  intro x hx hxn
  rcases eq_or_ne x r with rfl | hxr
  · exact not_exhausted (.inr (hnew hx)) i (hxn ▸ hex)
  · exact blockCount_eq_zero_iff.mp hex.2 x ((h x hxr).mp hx) hxn

/-- The nodes on the way from such a leaf to the root are there. -/
theorem LayersOk.exists_node {live : ℕ → Finset ℕ} (h : LayersOk D m live next t) (hi : i < D)
    (hr : r ∈ live i ∨ m ≤ r) (hnext : r / 2 ^ (i + 1) < next (i + 1)) :
    ∃ node, t (i + 1) (r / 2 ^ (i + 1)) = some node ∧
      NodeOk D m (live i) i (r / 2 ^ (i + 1)) node := by
  have hslot := h i hi _ hnext
  cases hnode : t (i + 1) (r / 2 ^ (i + 1)) with
  | none =>
    rw [hnode] at hslot
    exact absurd hslot.2 (not_exhausted hr (i + 1))
  | some node =>
    rw [hnode] at hslot
    exact ⟨node, rfl, hslot⟩

theorem Exhausted.mono {m' : ℕ} (hm : m ≤ m') (h : Exhausted m live i n) :
    Exhausted m' live i n :=
  ⟨h.1.trans hm, h.2⟩

theorem LayersOk.mono {m' : ℕ} (hm : m ≤ m') {live : ℕ → Finset ℕ}
    (h : LayersOk D m live next t) : LayersOk D m' live next t := by
  intro i hi n hn
  have hslot := h i hi n hn
  cases hnode : t (i + 1) n with
  | none =>
    rw [hnode] at hslot
    exact ⟨hslot.1, hslot.2.mono hm⟩
  | some node =>
    rw [hnode] at hslot
    have hok : NodeOk D m (live i) i n node := hslot
    exact { hok with
      discardLeft := fun hd => (hok.discardLeft hd).mono hm
      discardRight := fun hd => (hok.discardRight hd).mono hm }

/-- Off the way to a leaf, a change of that leaf is not seen. -/
theorem SlotOk.sameBut (h : SameBut r live live') (hnew : r ∈ live' → m ≤ r)
    (hn : r / 2 ^ (i + 1) ≠ n) (hslot : SlotOk D m live i n o) :
    SlotOk D m live' i n o := by
  rw [div_pow_succ] at hn
  have hleft : blockCount live' i (2 * n) = blockCount live i (2 * n) := h.blockCount_eq (by omega)
  have hright : blockCount live' i (2 * n + 1) = blockCount live i (2 * n + 1) :=
    h.blockCount_eq (by omega)
  cases o with
  | none => exact ⟨hslot.1, hslot.2.sameBut h hnew⟩
  | some node =>
    have hnode : NodeOk D m live i n node := hslot
    exact { hnode with
      sumLeft := hnode.sumLeft.trans hleft.symm
      sumRight := hnode.sumRight.trans hright.symm
      discardLeft := fun hd => (hnode.discardLeft hd).sameBut h hnew
      discardRight := fun hd => (hnode.discardRight hd).sameBut h hnew }

/-- **One node of the way**: arriving with what is now below makes it up to date. -/
theorem NodeOk.arrive (h : SameBut r live live') (hnew : r ∈ live' → m ≤ r) {old : Node}
    (hold : NodeOk D m live j (r / 2 ^ (j + 1)) old) {discardNode : Bool}
    (hdiscard : discardNode = true → Exhausted m live' j (r / 2 ^ j)) :
    NodeOk D m live' j (r / 2 ^ (j + 1))
      (old.arrive (r / 2 ^ j % 2 == 0) (blockCount live' j (r / 2 ^ j)) discardNode) := by
  have hhalf := div_pow_succ r j
  have hex : ∀ n, Exhausted m live j n → Exhausted m live' j n := fun n => Exhausted.sameBut h hnew
  by_cases heven : r / 2 ^ j % 2 = 0
  · have hbelow : r / 2 ^ j = 2 * (r / 2 ^ (j + 1)) := by omega
    have hother : blockCount live' j (2 * (r / 2 ^ (j + 1)) + 1) = _ := h.blockCount_eq (by omega)
    refine ⟨hold.nodeIndex, hold.isLeftNode, hold.parent, ?_, ?_, ?_, ?_⟩
    · simp [Node.arrive, heven, ← hbelow]
    · simp [Node.arrive, heven, hold.sumRight, hother]
    · simp only [Node.arrive, heven, Bool.or_eq_true, Bool.and_eq_true]
      rintro (hd | hd)
      · exact hex _ (hold.discardLeft hd)
      · exact hbelow ▸ hdiscard hd.1.1
    · simp only [Node.arrive, heven, Bool.or_eq_true, Bool.and_eq_true]
      rintro (hd | hd)
      · exact hex _ (hold.discardRight hd)
      · simp at hd
  · have hbelow : r / 2 ^ j = 2 * (r / 2 ^ (j + 1)) + 1 := by omega
    have hother : blockCount live' j (2 * (r / 2 ^ (j + 1))) = _ := h.blockCount_eq (by omega)
    refine ⟨hold.nodeIndex, hold.isLeftNode, hold.parent, ?_, ?_, ?_, ?_⟩
    · simp [Node.arrive, heven, hold.sumLeft, hother]
    · simp [Node.arrive, heven, ← hbelow]
    · simp only [Node.arrive, Bool.or_eq_true, Bool.and_eq_true]
      rintro (hd | hd)
      · exact hex _ (hold.discardLeft hd)
      · simp [heven] at hd
    · simp only [Node.arrive, Bool.or_eq_true, Bool.and_eq_true]
      rintro (hd | hd)
      · exact hex _ (hold.discardRight hd)
      · exact hbelow ▸ hdiscard hd.1.1

/-- With both flags set, the whole block is used up. -/
theorem NodeOk.exhausted (h : NodeOk D m live i n node)
    (hl : node.discardLeft = true) (hr : node.discardRight = true) :
    Exhausted m live (i + 1) n := by
  obtain ⟨hle, hright⟩ := h.discardRight hr
  refine ⟨?_, ?_⟩
  · calc (n + 1) * 2 ^ (i + 1) = (2 * n + 1 + 1) * 2 ^ i := by ring
      _ ≤ m := hle
  · rw [blockCount_succ, (h.discardLeft hl).2, hright]

/-- A slot below the root does not see that there is another layer. -/
theorem SlotOk.below (h : SlotOk D m live i n o) (hi : i + 1 < D) :
    SlotOk (D + 1) m live i n o := by
  cases o with
  | none => exact ⟨Nat.lt_succ_of_lt hi, h.2⟩
  | some node =>
    have hnode : NodeOk D m live i n node := h
    refine { hnode with parent := hnode.parent.trans ?_ }
    rw [if_neg (by omega), if_neg (by omega)]

theorem NodeOk.checkSums {verifyStack : Bool} (h : NodeOk D m live i n node) :
    checkSums verifyStack node (i + 1) = .ok () := by
  have hl := blockCount_le live i (2 * n)
  have hr := blockCount_le live i (2 * n + 1)
  rw [← h.sumLeft] at hl
  rw [← h.sumRight] at hr
  refine if_neg ?_
  rintro ⟨-, hsum⟩
  simp only [Nat.add_sub_cancel] at hsum
  omega

/-- One node of the way is written, or deleted, and its layer is up to date. -/
theorem LayersOk.set (h : SameBut r live live') (hnew : r ∈ live' → m ≤ r)
    (hlayers : LayersOk D m (fun i => if i < j then live' else live) next t) (ho : SlotOk D m live' j (r / 2 ^ (j + 1)) o) :
    LayersOk D m (fun i => if i < j + 1 then live' else live) next
      (t.set (j + 1) (r / 2 ^ (j + 1)) o) := by
  intro i hi n hn
  have hslot := hlayers i hi n hn
  dsimp only at hslot ⊢
  rcases eq_or_ne i j with rfl | hij
  · rw [if_neg (lt_irrefl i)] at hslot
    rw [if_pos (Nat.lt_succ_self i)]
    by_cases hne : n = r / 2 ^ (i + 1)
    · subst hne
      rw [Tree.set_self]
      exact ho
    · rw [Tree.set_of_ne t o (by simpa using hne)]
      exact hslot.sameBut h hnew (Ne.symm hne)
  · rw [Tree.set_layer_of_ne t _ o (by omega)]
    have hiff : i < j ↔ i < j + 1 := by omega
    simpa only [hiff] using hslot

/-- The stack distance at the next layer. -/
theorem NodeOk.stackDist (h : NodeOk D m live j (r / 2 ^ (j + 1)) node) :
    (if (r / 2 ^ j % 2 == 0) = true then laterCount live r j + node.sumRight
      else laterCount live r j) = laterCount live r (j + 1) := by
  rw [laterCount_succ, h.sumRight]
  by_cases heven : r / 2 ^ j % 2 = 0 <;> simp [heven]

/-- **One call of `updateSum`** makes the next layer up to date, and goes on above it. -/
theorem updateSum_step (verifyStack : Bool) (h : SameBut r live live') (hnew : r ∈ live' → m ≤ r)
    (hr : r ∈ live ∨ m ≤ r) (fuel : ℕ) (hj : j < D) (hnext : r / 2 ^ (j + 1) < next (j + 1))
    {discardNode : Bool} (hlayers : LayersOk D m (fun i => if i < j then live' else live) next t)
    (hdiscard : discardNode = true → Exhausted m live' j (r / 2 ^ j)) :
    ∃ t₁ deleted, updateSum verifyStack (fuel + 1) t (j + 1, r / 2 ^ (j + 1)) (r / 2 ^ j % 2 == 0)
        (blockCount live' j (r / 2 ^ j)) j (laterCount live r j) discardNode =
          (if j + 1 = D then .ok (t₁, laterCount live r (j + 1))
          else updateSum verifyStack fuel t₁ (j + 2, r / 2 ^ (j + 2)) (r / 2 ^ (j + 1) % 2 == 0)
            (blockCount live' (j + 1) (r / 2 ^ (j + 1))) (j + 1) (laterCount live r (j + 1))
            deleted) ∧
      LayersOk D m (fun i => if i < j + 1 then live' else live) next t₁ ∧
      (deleted = true → Exhausted m live' (j + 1) (r / 2 ^ (j + 1))) ∧ t₁ 0 = t 0 := by
  obtain ⟨old, hold, hok⟩ := hlayers.exists_node hj (by simpa using hr) hnext
  simp only [lt_irrefl, if_false] at hok
  have hnode := NodeOk.arrive h hnew hok hdiscard
  generalize hnode' : old.arrive (r / 2 ^ j % 2 == 0) (blockCount live' j (r / 2 ^ j)) discardNode =
    node at hnode
  obtain ⟨deleted, hdeleted⟩ : ∃ b, b = (node.discardLeft && node.discardRight && discardNode &&
    node.parent.isSome && blockCount live' j (r / 2 ^ j) == 0) := ⟨_, rfl⟩
  have hused : deleted = true → j + 1 < D ∧ Exhausted m live' (j + 1) (r / 2 ^ (j + 1)) := by
    intro hd
    simp only [hd, Bool.true_eq, Bool.and_eq_true] at hdeleted
    obtain ⟨⟨⟨⟨hleft, hright⟩, -⟩, hparent⟩, -⟩ := hdeleted
    refine ⟨lt_of_le_of_ne hj ?_, hnode.exhausted hleft hright⟩
    intro htop
    simp [hnode.parent, htop] at hparent
  -- the key of the node is its index, so that it is erased where it was found
  have hset : (if deleted = true then (t.set (j + 1) (r / 2 ^ (j + 1)) none).set (j + 1)
        node.nodeIndex none else t.set (j + 1) (r / 2 ^ (j + 1)) (some node)) =
      t.set (j + 1) (r / 2 ^ (j + 1)) (if deleted then none else some node) := by
    cases deleted with
    | false => rfl
    | true =>
      rw [hnode.nodeIndex]
      exact Tree.set_set t _ _ _ _
  refine ⟨t.set (j + 1) (r / 2 ^ (j + 1)) (if deleted then none else some node), deleted, ?_, ?_,
    fun hd => (hused hd).2, Tree.set_layer_of_ne t _ _ (by omega)⟩
  · rw [updateSum, Tree.deref_eq hold]
    change (StackDist.checkSums verifyStack old (j + 1) >>= _) = _
    rw [hok.checkSums]
    dsimp only [bind, Except.bind]
    rw [hnode', ← hdeleted, hset, hok.stackDist, hnode.parent]
    by_cases htop : j + 1 = D
    · simp only [htop, if_true]
    · simp only [htop, if_false]
      rw [hnode.isLeftNode, hnode.sumLeft, hnode.sumRight, ← blockCount_succ, ← div_pow_succ]
  · refine LayersOk.set h hnew hlayers ?_
    cases deleted with
    | false => exact hnode
    | true => exact hused rfl

/-- **`updateSum`** makes the layers above up to date with the change of a leaf, and adds up the
leaves after it. -/
theorem updateSum_spec (verifyStack : Bool) (h : SameBut r live live') (hnew : r ∈ live' → m ≤ r)
    (hr : r ∈ live ∨ m ≤ r) (hnext : ∀ i < D, r / 2 ^ (i + 1) < next (i + 1)) {fuel : ℕ} :
    ∀ {j : ℕ} {t : Tree} {discardNode : Bool}, j < D → j + fuel = D →
      LayersOk D m (fun i => if i < j then live' else live) next t →
      (discardNode = true → Exhausted m live' j (r / 2 ^ j)) →
      ∃ t', updateSum verifyStack fuel t (j + 1, r / 2 ^ (j + 1)) (r / 2 ^ j % 2 == 0)
          (blockCount live' j (r / 2 ^ j)) j (laterCount live r j) discardNode =
            .ok (t', laterCount live r D) ∧
        LayersOk D m (fun _ => live') next t' ∧ t' 0 = t 0 := by
  induction fuel with
  | zero => omega
  | succ fuel ih =>
    intro j t discardNode hlt hj hlayers hdiscard
    obtain ⟨t₁, deleted, hstep, hlayers', hdeleted, hleaves⟩ :=
      updateSum_step verifyStack h hnew hr fuel hlt (hnext j hlt) hlayers hdiscard
    by_cases htop : j + 1 = D
    · subst htop
      rw [if_pos rfl] at hstep
      refine ⟨t₁, hstep, ?_, hleaves⟩
      intro i hi n hn
      have hslot := hlayers' i hi n hn
      dsimp only at hslot
      rwa [if_pos hi] at hslot
    · rw [if_neg htop] at hstep
      obtain ⟨t', hrest, hlayers'', hleaves'⟩ := ih (by omega) (by omega) hlayers' hdeleted
      exact ⟨t', hstep.trans hrest, hlayers'', hleaves'.trans hleaves⟩

/-- **`getSum`** adds up the same leaves. -/
theorem getSum_spec (hr : r ∈ live ∨ m ≤ r) (hnext : ∀ i < D, r / 2 ^ (i + 1) < next (i + 1))
    (hlayers : LayersOk D m (fun _ => live) next t) {fuel : ℕ} : ∀ {j : ℕ}, j < D → j + fuel = D →
      getSum fuel t (j + 1, r / 2 ^ (j + 1)) (r / 2 ^ j % 2 == 0) (laterCount live r j) =
        .ok (laterCount live r D) := by
  induction fuel with
  | zero => omega
  | succ fuel ih =>
    intro j hlt hj
    obtain ⟨node, hnode, hok⟩ := hlayers.exists_node hlt hr (hnext j hlt)
    rw [getSum, Tree.deref_eq hnode]
    dsimp only [bind, Except.bind]
    rw [hok.stackDist, hok.parent]
    by_cases htop : j + 1 = D
    · simp only [htop, if_true]
    · simp only [htop, if_false]
      rw [hok.isLeftNode, ← div_pow_succ]
      exact ih (by omega) (by omega)

/-- The way leads up layer by layer. -/
theorem climb_spec (hr : r ∈ live ∨ m ≤ r) (hnext : ∀ i < D, r / 2 ^ (i + 1) < next (i + 1))
    (hlayers : LayersOk D m (fun _ => live) next t) {k : ℕ} : ∀ {j : ℕ}, j + k < D →
      climb k t (j + 1, r / 2 ^ (j + 1)) = .ok (j + k + 1, r / 2 ^ (j + k + 1)) := by
  induction k with
  | zero =>
    intro j _
    rfl
  | succ k ih =>
    intro j hj
    obtain ⟨node, hnode, hok⟩ := hlayers.exists_node (by omega) hr (hnext j (by omega))
    rw [climb, Tree.deref_eq hnode]
    dsimp only [bind, Except.bind]
    rw [hok.parent, if_neg (by omega), ← div_pow_succ]
    dsimp only
    rw [ih (by omega), add_right_comm j 1 k, add_assoc j k 1]

end Path

end StackDist

/-! ## The leaf of an access -/

open StackDist

namespace StackDistCalc

variable {Addr : Type} {s : StackDistCalc Addr} {w m r : ℕ} {live live' : Finset ℕ}

/-- The tree with nodes for `w` leaves, of which `m` have been added and `live` are left. -/
structure Shape (s : StackDistCalc Addr) (w m : ℕ) (live : Finset ℕ) : Prop where
  depth_pos : 0 < s.depth
  le_pow_depth : w ≤ 2 ^ s.depth
  pow_lt : s.depth = 1 ∨ 2 ^ (s.depth - 1) < w
  nextIndex : ∀ i < s.depth, s.nextIndex (i + 1) = (w - 1) / 2 ^ (i + 1) + 1
  layers : LayersOk s.depth m (fun _ => live) s.nextIndex s.tree
  leaves : ∀ x ∈ live, ∃ leaf, s.tree 0 x = some leaf ∧ leaf.parent = some (1, x / 2) ∧
    leaf.isLeftNode = (x % 2 == 0)
  live_lt : ∀ x ∈ live, x < m

theorem Shape.congr {s' : StackDistCalc Addr} (h : s.Shape w m live) (hdepth : s'.depth = s.depth)
    (hnext : s'.nextIndex = s.nextIndex) (htree : s'.tree = s.tree) : s'.Shape w m live := by
  obtain ⟨h1, h2, h3, h4, h5, h6, h7⟩ := h
  rw [← hdepth] at h1 h2 h3 h4 h5
  rw [← hnext] at h4 h5
  rw [← htree] at h5 h6
  exact ⟨h1, h2, h3, h4, h5, h6, h7⟩

theorem shape_create (verifyStack : Bool) :
    (create verifyStack : StackDistCalc Addr).Shape 0 0 ∅ where
  depth_pos := one_pos
  le_pow_depth := Nat.zero_le _
  pow_lt := .inl rfl
  nextIndex i hi := by
    obtain rfl : i = 0 := Nat.lt_one_iff.mp hi
    rfl
  layers i hi n hn := by
    obtain rfl : i = 0 := Nat.lt_one_iff.mp hi
    obtain rfl : n = 0 := Nat.lt_one_iff.mp hn
    exact ⟨rfl, rfl, rfl, rfl, rfl, by simp, by simp⟩
  leaves x hx := absurd hx (Finset.notMem_empty x)
  live_lt x hx := absurd hx (Finset.notMem_empty x)

theorem Shape.lt_nextIndex (h : s.Shape w m live) (hr : r < w) :
    ∀ i < s.depth, r / 2 ^ (i + 1) < s.nextIndex (i + 1) := by
  intro i hi
  rw [h.nextIndex i hi]
  exact Nat.lt_succ_of_le (Nat.div_le_div_right (by omega))

/-- **The change of a leaf** goes up to the root. -/
theorem Shape.updateSumsLeavesToRoot (h : s.Shape w m live) (hsame : SameBut r live live')
    (hr : r < w) {leaf : Node} (hleaf : s.tree 0 r = some leaf)
    (hparent : leaf.parent = some (1, r / 2)) (hleft : leaf.isLeftNode = (r % 2 == 0))
    (isNewLeaf : Bool) (hnew : if isNewLeaf then m ≤ r ∧ r ∈ live' else r ∈ live ∧ r ∉ live') :
    ∃ t, s.updateSumsLeavesToRoot r isNewLeaf =
        .ok ({ s with tree := t }, laterCount live r s.depth) ∧
      LayersOk s.depth m (fun _ => live') s.nextIndex t ∧
      t 0 = update (s.tree 0) r
        (some { leaf with sumLeft := if isNewLeaf then 1 else 0 }) := by
  have hsum : blockCount live' 0 (r / 2 ^ 0) = if isNewLeaf then 1 else 0 := by
    rw [blockCount_zero, pow_zero, Nat.div_one]
    cases isNewLeaf with
    | false => exact if_neg hnew.2
    | true => exact if_pos hnew.2
  have hpath : r ∈ live ∨ m ≤ r := by
    cases isNewLeaf with
    | false => exact .inl hnew.1
    | true => exact .inr hnew.1
  have hadded : r ∈ live' → m ≤ r := by
    intro hmem
    cases isNewLeaf with
    | false => exact absurd hmem hnew.2
    | true => exact hnew.1
  -- only a leaf that goes can use up its block
  have hdiscard : (!isNewLeaf) = true → Exhausted m live' 0 (r / 2 ^ 0) := by
    intro hd
    have hfalse : isNewLeaf = false := by simpa using hd
    subst hfalse
    refine ⟨?_, hsum⟩
    simpa using h.live_lt r hnew.1
  have hlayers : LayersOk s.depth m (fun i => if i < 0 then live' else live) s.nextIndex
      (s.tree.set 0 r (some { leaf with sumLeft := if isNewLeaf then 1 else 0 })) := by
    intro i hi n hn
    exact h.layers i hi n hn
  obtain ⟨t, hup, hlayers', hleaves⟩ := updateSum_spec s.verifyStack hsame hadded hpath
    (h.lt_nextIndex hr) h.depth_pos (zero_add _) hlayers hdiscard
  refine ⟨t, ?_, hlayers', ?_⟩
  · unfold StackDistCalc.updateSumsLeavesToRoot
    rw [Tree.deref_eq hleaf]
    dsimp only [bind, Except.bind]
    rw [hparent, hleft]
    dsimp only [follow]
    rw [hsum, laterCount_zero, pow_zero, Nat.div_one, pow_one, hparent, hleft] at hup
    rw [hup]
    rfl
  · rw [hleaves, Tree.set, update_self]

/-! ## New nodes -/

theorem leastSigBit_two_mul {n : ℕ} (hn : n ≠ 0) : leastSigBit (2 * n) = 2 * leastSigBit n := by
  have hpred : 2 * n - 1 = 2 * (n - 1) + 1 := by omega
  have hbit := Nat.ldiff_bit false n true (n - 1)
  simp only [Nat.bit_false_apply, Nat.bit_true_apply] at hbit
  rw [leastSigBit, hpred, hbit]
  simp [leastSigBit]

theorem leastSigBit_two_mul_add_one (n : ℕ) : leastSigBit (2 * n + 1) = 1 := by
  have hself : Nat.ldiff n n = 0 := by
    apply Nat.eq_of_testBit_eq
    simp [Nat.testBit_ldiff]
  have hbit := Nat.ldiff_bit true n false n
  simp only [Nat.bit_false_apply, Nat.bit_true_apply] at hbit
  rw [leastSigBit, Nat.add_sub_cancel, hbit]
  simp [hself]

theorem isPowerOf2_iff (n : ℕ) : isPowerOf2 n = true ↔ ∃ k, n = 2 ^ k := by
  have hdef : ∀ n, isPowerOf2 n = true ↔ n ≠ 0 ∧ leastSigBit n = n := by simp [isPowerOf2]
  induction n using Nat.strong_induction_on with
  | _ n ih =>
    rcases Nat.even_or_odd' n with ⟨l, rfl | rfl⟩
    · rcases eq_or_ne l 0 with rfl | hl
      · refine iff_of_false (by simp [hdef]) ?_
        rintro ⟨k, hk⟩
        have := Nat.two_pow_pos k
        omega
      · have hhalf : isPowerOf2 l = true ↔ ∃ k, l = 2 ^ k := ih l (by omega)
        have hiff : isPowerOf2 (2 * l) = true ↔ isPowerOf2 l = true := by
          simp [hdef, leastSigBit_two_mul hl]
        rw [hiff, hhalf]
        constructor
        · rintro ⟨k, rfl⟩
          exact ⟨k + 1, by ring⟩
        · rintro ⟨_ | k, hk⟩
          · omega
          · exact ⟨k, by omega⟩
    · rw [hdef, leastSigBit_two_mul_add_one]
      constructor
      · rintro ⟨-, hone⟩
        exact ⟨0, by omega⟩
      · rintro ⟨_ | k, hk⟩
        · omega
        · omega

/-- A block that starts at `m` or later has no leaf yet. -/
theorem blockCount_new (hlive : ∀ x ∈ live, x < m) {i n : ℕ} (hn : m ≤ n * 2 ^ i) :
    blockCount live i n = 0 := by
  rw [blockCount_eq_zero_iff]
  intro x hx hxn
  have hlt := hlive x hx
  have hle := Nat.div_mul_le_self x (2 ^ i)
  rw [hxn] at hle
  omega

theorem addNode_leaves (s : StackDistCalc Addr) (i : ℕ) :
    (s.addNode (i + 1)).tree 0 = s.tree 0 := by
  dsimp only [addNode]
  rw [Tree.set_layer_of_ne _ _ _ (Nat.succ_ne_zero i).symm]

/-- **A new node** goes on top of the leaf that comes next. -/
theorem layersOk_addNode {i : ℕ} (hi : i + 1 < s.depth) (hlive : ∀ x ∈ live, x < m)
    (hlayers : LayersOk s.depth m (fun _ => live) s.nextIndex s.tree) (hm : m % 2 ^ (i + 1) = 0)
    (hnext : s.nextIndex (i + 1) = m / 2 ^ (i + 1))
    (habove : s.nextIndex (i + 2) = m / 2 ^ (i + 2) + 1) :
    LayersOk s.depth m (fun _ => live) (s.addNode (i + 1)).nextIndex (s.addNode (i + 1)).tree := by
  -- the node above is there, since it has room for leaf `m`
  obtain ⟨above, habove', -⟩ := hlayers.exists_node hi (.inr (le_refl m))
    (habove ▸ Nat.lt_succ_self _)
  have hpointer : s.tree.pointer (i + 2) (s.nextIndex (i + 2) - 1) = some (i + 2, m / 2 ^ (i + 2)) := by
    rw [habove]
    exact Tree.pointer_eq habove'
  have hstart : m = 2 * (m / 2 ^ (i + 1)) * 2 ^ i := by
    have := Nat.div_add_mod m (2 ^ (i + 1))
    rw [hm, pow_succ] at this
    rw [pow_succ]
    linarith
  intro j hj n hn
  dsimp only [addNode] at hn ⊢
  by_cases hslot : (j + 1, n) = (i + 1, s.nextIndex (i + 1))
  · obtain ⟨rfl, rfl⟩ : j = i ∧ n = s.nextIndex (i + 1) := by simpa using hslot
    rw [Tree.set_self]
    refine ⟨rfl, rfl, ?_, ?_, ?_, by simp, by simp⟩
    · rw [if_neg (by omega), hnext, ← div_pow_succ]
      exact hpointer
    · rw [hnext]
      exact (blockCount_new hlive hstart.le).symm
    · rw [hnext]
      refine (blockCount_new hlive (hstart.le.trans ?_)).symm
      exact Nat.mul_le_mul_right _ (Nat.le_succ _)
  · rw [Tree.set_of_ne _ _ hslot]
    refine hlayers j hj n ?_
    rcases eq_or_ne j i with rfl | hji
    · rw [update_self] at hn
      have : n ≠ s.nextIndex (j + 1) := fun h => hslot (by rw [h])
      omega
    · rwa [update_of_ne (by omega)] at hn

theorem pred_div_add_one (hm : 0 < m) (b : ℕ) :
    (m - 1) / b + 1 = if m % b = 0 then m / b else m / b + 1 := by
  obtain ⟨l, rfl⟩ := Nat.exists_eq_succ_of_ne_zero hm.ne'
  rw [Nat.succ_sub_one, Nat.succ_div]
  by_cases hdvd : b ∣ l + 1
  · rw [if_pos hdvd, if_pos (Nat.mod_eq_zero_of_dvd hdvd)]
  · rw [if_neg hdvd, if_neg fun hmod => hdvd (Nat.dvd_of_mod_eq_zero hmod)]

/-- **The loop of `updateTree`**: where the layers above are ready for leaf `m`, the ones below
become so. -/
theorem addNodes_spec (needed : ℕ → Bool) (hm : 0 < m) (hlive : ∀ x ∈ live, x < m) {D : ℕ}
    (hneeded : ∀ i, i + 1 < D → (needed (i + 1) = true ↔ m % 2 ^ (i + 1) = 0)) {k : ℕ} :
    ∀ s : StackDistCalc Addr, s.depth = D → k < D →
      LayersOk D m (fun _ => live) s.nextIndex s.tree →
      (∀ i < k, s.nextIndex (i + 1) = (m - 1) / 2 ^ (i + 1) + 1) →
      (∀ i, k ≤ i → i < D → s.nextIndex (i + 1) = m / 2 ^ (i + 1) + 1) →
      ∃ t next, addNodes needed k s = { s with tree := t, nextIndex := next } ∧
        t 0 = s.tree 0 ∧ LayersOk D m (fun _ => live) next t ∧
        ∀ i < D, next (i + 1) = m / 2 ^ (i + 1) + 1 := by
  induction k with
  | zero =>
    intro s _ _ hlayers _ hready
    exact ⟨s.tree, s.nextIndex, rfl, rfl, hlayers, fun i hi => hready i (Nat.zero_le i) hi⟩
  | succ k ih =>
    intro s hdepth hk hlayers hbelow hready
    have hnext := hbelow k (Nat.lt_succ_self k)
    rw [pred_div_add_one hm] at hnext
    rw [addNodes]
    by_cases hmod : m % 2 ^ (k + 1) = 0
    · rw [if_pos hmod] at hnext
      rw [if_pos ((hneeded k hk).mpr hmod)]
      have hadd := layersOk_addNode (hdepth.symm ▸ hk) hlive (hdepth.symm ▸ hlayers) hmod hnext
        (hready (k + 1) (le_refl _) hk)
      rw [hdepth] at hadd
      have hbelow' : ∀ i < k, 
          (s.addNode (k + 1)).nextIndex (i + 1) = (m - 1) / 2 ^ (i + 1) + 1 := by
        intro i hi
        dsimp only [addNode]
        rw [update_of_ne (by omega)]
        exact hbelow i (by omega)
      have hready' : ∀ i, k ≤ i → i < D →
          (s.addNode (k + 1)).nextIndex (i + 1) = m / 2 ^ (i + 1) + 1 := by
        intro i hki hi
        dsimp only [addNode]
        rcases eq_or_ne i k with rfl | hik
        · rw [update_self, hnext]
        · rw [update_of_ne (by omega)]
          exact hready i (by omega) hi
      obtain ⟨t, next, hrun, hleaves, hrest⟩ :=
        ih (s.addNode (k + 1)) hdepth (by omega) hadd hbelow' hready'
      exact ⟨t, next, hrun, hleaves.trans (addNode_leaves s k), hrest⟩
    · rw [if_neg hmod] at hnext
      rw [if_neg (fun h => hmod ((hneeded k hk).mp h))]
      refine ih s hdepth (by omega) hlayers (fun i hi => hbelow i (by omega)) ?_
      intro i hki hi
      rcases eq_or_ne i k with rfl | hik
      · exact hnext
      · exact hready i (by omega) hi

/-- **A new root**: the old one is its left half. -/
theorem layersOk_newRoot {d : ℕ} {next : ℕ → ℕ} {t : StackDist.Tree} {old : Node}
    (hlive : ∀ x ∈ live, x < m) (hm : m = 2 ^ (d + 1)) (hnext : next (d + 1) = 1)
    (hlayers : LayersOk (d + 1) m (fun _ => live) next t) (hold : t (d + 1) 0 = some old) :
    LayersOk (d + 2) m (fun _ => live) (update next (d + 2) 1)
      ((t.set (d + 2) 0 (some old.newRoot)).set (d + 1) 0
        (some { old with parent := some (d + 2, 0) })) := by
  have hok : SlotOk (d + 1) m live d 0 (some old) :=
    hold ▸ hlayers d (Nat.lt_succ_self d) 0 (by omega)
  have hzero : ∀ n, n < 1 → n = 0 := by omega
  intro i hi n hn
  by_cases htop : i = d + 1
  · subst htop
    rw [update_self] at hn
    obtain rfl := hzero n hn
    rw [Tree.set_layer_of_ne _ _ _ (by omega), Tree.set_self]
    refine ⟨rfl, rfl, (if_pos rfl).symm, ?_, ?_, ?_, by simp [Node.newRoot]⟩
    · rw [blockCount_succ, ← hok.sumRight, ← hok.sumLeft, add_comm]
      rfl
    · exact (blockCount_new hlive (by omega)).symm
    · intro hflags
      obtain ⟨hleft, hright⟩ : old.discardLeft = true ∧ old.discardRight = true := by
        simpa [Node.newRoot] using hflags
      exact hok.exhausted hleft hright
  · rw [update_of_ne (by omega)] at hn
    rcases eq_or_ne i d with rfl | hroot
    · rw [hnext] at hn
      obtain rfl := hzero n hn
      rw [Tree.set_self]
      exact { hok with parent := (if_neg (by omega)).symm }
    · rw [Tree.set_layer_of_ne _ _ _ (by omega), Tree.set_layer_of_ne _ _ _ (by omega)]
      exact (hlayers i (by omega) n hn).below (by omega)

section

variable (h : s.Shape m m live)

include h

theorem Shape.addRoot (hm : m = 2 ^ s.depth) :
    ∃ t, s.addRoot = .ok { s with
        depth := s.depth + 1
        nextIndex := update s.nextIndex (s.depth + 1) 1
        tree := t } ∧
      t 0 = s.tree 0 ∧
      LayersOk (s.depth + 1) m (fun _ => live) (update s.nextIndex (s.depth + 1) 1) t := by
  obtain ⟨d, hd⟩ := Nat.exists_eq_succ_of_ne_zero h.depth_pos.ne'
  have hlayers := h.layers
  rw [hd] at hm hlayers
  have hpos := Nat.two_pow_pos (d + 1)
  have hnext : s.nextIndex (d + 1) = 1 := by
    rw [h.nextIndex d (by omega), Nat.div_eq_of_lt (by omega)]
  -- the root is never deleted
  obtain ⟨old, hold⟩ : ∃ old, s.tree (d + 1) 0 = some old := by
    have hslot := hlayers d (Nat.lt_succ_self d) 0 (by omega)
    cases hnode : s.tree (d + 1) 0 with
    | none =>
      rw [hnode] at hslot
      exact absurd hslot.1 (lt_irrefl _)
    | some old => exact ⟨old, rfl⟩
  have hgrown := layersOk_newRoot h.live_lt hm hnext hlayers hold
  rw [hd]
  refine ⟨_, ?_, ?_, hgrown⟩
  · unfold StackDistCalc.addRoot
    rw [hd, Tree.deref_eq hold]
    rfl
  · rw [Tree.set_layer_of_ne _ _ _ (by omega), Tree.set_layer_of_ne _ _ _ (by omega)]

/-- The tree is ready for leaf `m`. -/
theorem Shape.grow {D : ℕ} {next : ℕ → ℕ} {t : StackDist.Tree}
    (hpos : 0 < D) (hlt : m < 2 ^ D) (hlow : D = 1 ∨ 2 ^ (D - 1) < m + 1)
    (hnext : ∀ i < D, next (i + 1) = m / 2 ^ (i + 1) + 1)
    (hlayers : LayersOk D m (fun _ => live) next t) (hleaves : t 0 = s.tree 0) :
    Shape { s with depth := D, nextIndex := next, tree := t } (m + 1) m live where
  depth_pos := hpos
  le_pow_depth := hlt
  pow_lt := hlow
  nextIndex := hnext
  layers := hlayers
  leaves x hx := by
    dsimp only
    rw [hleaves]
    exact h.leaves x hx
  live_lt := h.live_lt

/-- At a power of two the tree is full. -/
theorem Shape.depth_of_pow (heven : m % 2 = 0) {k : ℕ} (hk : m = 2 ^ k) :
    m = 2 ^ s.depth := by
  have hle := h.le_pow_depth
  rw [hk] at hle
  have hkd : k ≤ s.depth := (Nat.pow_le_pow_iff_right (by omega)).mp hle
  have hk0 : k ≠ 0 := by
    rintro rfl
    omega
  have hdk : s.depth ≤ k := by
    rcases h.pow_lt with hone | hlt
    · omega
    · rw [hk] at hlt
      have := (Nat.pow_lt_pow_iff_right (by omega)).mp hlt
      omega
  rw [hk, le_antisymm hkd hdk]

theorem Shape.updateTree_root (hm : m = 2 ^ s.depth) :
    ∃ s₁ D next t, s.addRoot = .ok s₁ ∧ addNodes (fun _ => true) (s₁.depth - 1) s₁ =
        { s with depth := D, nextIndex := next, tree := t } ∧
      t 0 = s.tree 0 ∧
      Shape { s with depth := D, nextIndex := next, tree := t } (m + 1) m live := by
  have hlt : m < 2 ^ (s.depth + 1) := hm ▸ Nat.pow_lt_pow_succ (by omega)
  have hpos : 0 < m := hm ▸ Nat.two_pow_pos _
  have hneeded : ∀ i, i + 1 < s.depth + 1 → (true = true ↔ m % 2 ^ (i + 1) = 0) := by
    intro i hi
    refine iff_of_true rfl (Nat.mod_eq_zero_of_dvd ?_)
    rw [hm]
    exact pow_dvd_pow 2 (by omega)
  have hbelow : ∀ i < s.depth, update s.nextIndex (s.depth + 1) 1 (i + 1) =
      (m - 1) / 2 ^ (i + 1) + 1 := by
    intro i hi
    rw [update_of_ne (by omega)]
    exact h.nextIndex i hi
  have hready : ∀ i, s.depth ≤ i → i < s.depth + 1 →
      update s.nextIndex (s.depth + 1) 1 (i + 1) = m / 2 ^ (i + 1) + 1 := by
    intro i hle hi
    obtain rfl : i = s.depth := by omega
    rw [update_self, Nat.div_eq_of_lt hlt]
  obtain ⟨t₁, hroot, hleaves₁, hlayers₁⟩ := h.addRoot hm
  obtain ⟨t, next, hrun, hleaves, hlayers, hnext⟩ := addNodes_spec (fun _ => true) hpos h.live_lt
    hneeded { s with
      depth := s.depth + 1
      nextIndex := update s.nextIndex (s.depth + 1) 1
      tree := t₁ } rfl (Nat.lt_succ_self s.depth) hlayers₁ hbelow hready
  have hleaves' : t 0 = s.tree 0 := hleaves.trans hleaves₁
  have hlow : 2 ^ (s.depth + 1 - 1) < m + 1 := by
    rw [Nat.add_sub_cancel, ← hm]
    exact Nat.lt_succ_self m
  exact ⟨_, s.depth + 1, next, t, hroot, hrun, hleaves',
    h.grow (Nat.succ_pos _) hlt (.inr hlow) hnext hlayers hleaves'⟩

theorem Shape.updateTree_inner (hlt : m < 2 ^ s.depth) :
    ∃ next t, addNodes (fun i => m % 2 ^ i == 0) (s.depth - 1) s =
        { s with nextIndex := next, tree := t } ∧
      t 0 = s.tree 0 ∧ Shape { s with nextIndex := next, tree := t } (m + 1) m live := by
  have hpos := h.depth_pos
  have hlow : s.depth = 1 ∨ 2 ^ (s.depth - 1) < m + 1 := h.pow_lt.imp_right Nat.lt_succ_of_lt
  -- the root is the only node of its layer
  have htop : s.nextIndex (s.depth - 1 + 1) = m / 2 ^ (s.depth - 1 + 1) + 1 := by
    rw [h.nextIndex (s.depth - 1) (by omega), Nat.sub_add_cancel hpos, Nat.div_eq_of_lt hlt,
      Nat.div_eq_of_lt (by omega)]
  rcases eq_zero_or_pos m with hzero | hm
  · have hone : s.depth = 1 := h.pow_lt.resolve_right (by rw [hzero]; exact Nat.not_lt_zero _)
    have hroot : s.depth - 1 = 0 := by omega
    rw [hroot] at htop ⊢
    refine ⟨s.nextIndex, s.tree, rfl, rfl, h.grow hpos hlt hlow ?_ h.layers rfl⟩
    intro i hi
    obtain rfl : i = 0 := by omega
    exact htop
  · have hready : ∀ i, s.depth - 1 ≤ i → i < s.depth →
        s.nextIndex (i + 1) = m / 2 ^ (i + 1) + 1 := by
      intro i hle hi
      obtain rfl : i = s.depth - 1 := by omega
      exact htop
    obtain ⟨t, next, hrun, hleaves, hlayers, hnext⟩ := addNodes_spec (fun i => m % 2 ^ i == 0) hm
      h.live_lt (by simp) s rfl (by omega) h.layers (fun i hi => h.nextIndex i (by omega)) hready
    exact ⟨next, t, hrun, hleaves, h.grow hpos hlt hlow hnext hlayers hleaves⟩

/-- **`updateTree`** provides the nodes for the next leaf. -/
theorem Shape.updateTree (hindex : s.index = m) (heven : m % 2 = 0) :
    ∃ D next t, s.updateTree = .ok { s with depth := D, nextIndex := next, tree := t } ∧
      t 0 = s.tree 0 ∧
      Shape { s with depth := D, nextIndex := next, tree := t } (m + 1) m live := by
  subst hindex
  unfold StackDistCalc.updateTree
  by_cases hpow : isPowerOf2 s.index = true
  · obtain ⟨k, hk⟩ := (isPowerOf2_iff s.index).mp hpow
    obtain ⟨s₁, D, next, t, hroot, hrun, hrest⟩ := h.updateTree_root (h.depth_of_pow heven hk)
    refine ⟨D, next, t, ?_, hrest⟩
    rw [if_pos hpow, hroot]
    exact congrArg Except.ok hrun
  · have hne : s.index ≠ 2 ^ s.depth := fun hm => hpow ((isPowerOf2_iff _).mpr ⟨_, hm⟩)
    obtain ⟨next, t, hrun, hrest⟩ := h.updateTree_inner (lt_of_le_of_ne h.le_pow_depth hne)
    refine ⟨s.depth, next, t, ?_, hrest⟩
    rw [if_neg hpow, hrun]

/-- At an odd index the nodes are there already. -/
theorem Shape.odd (hodd : m % 2 ≠ 0) : s.Shape (m + 1) m live := by
  have hpos := h.depth_pos
  have hlt : m < 2 ^ s.depth := by
    refine lt_of_le_of_ne h.le_pow_depth fun hm => hodd ?_
    rw [hm]
    exact Nat.mod_eq_zero_of_dvd (dvd_pow_self 2 (by omega))
  refine h.grow hpos hlt (h.pow_lt.imp_right Nat.lt_succ_of_lt) ?_ h.layers rfl
  intro i hi
  have hmod : m % 2 ^ (i + 1) ≠ 0 := by
    intro hmod
    exact hodd (Nat.mod_eq_zero_of_dvd ((dvd_pow_self 2 (Nat.succ_ne_zero i)).trans
      (Nat.dvd_of_mod_eq_zero hmod)))
  rw [h.nextIndex i hi, pred_div_add_one (by omega), if_neg hmod]

/-- The tree is made ready for the next leaf. -/
theorem Shape.updateTreeIfEven (hindex : s.index = m) :
    ∃ D next t, s.updateTreeIfEven = .ok { s with depth := D, nextIndex := next, tree := t } ∧
      t 0 = s.tree 0 ∧
      Shape { s with depth := D, nextIndex := next, tree := t } (m + 1) m live := by
  subst hindex
  unfold StackDistCalc.updateTreeIfEven
  split_ifs with heven
  · exact h.updateTree rfl heven
  · exact ⟨s.depth, s.nextIndex, s.tree, rfl, rfl, h.odd heven⟩

end

/-! ## One access -/

theorem Shape.laterCount_eq (h : s.Shape w m live) (hw : m ≤ w) (hr : r ∈ live) :
    laterCount live r s.depth = (live.filter (r < ·)).card := by
  have hlt : ∀ x ∈ live, x < 2 ^ s.depth := fun x hx =>
    lt_of_lt_of_le (h.live_lt x hx) (hw.trans h.le_pow_depth)
  exact laterCount_top (hlt r hr) hlt

/-- A change of the tree that the leaves of `live'` do not see. -/
theorem Shape.set_leaves (h : s.Shape w m live) {t : StackDist.Tree}
    (hlayers : LayersOk s.depth m (fun _ => live') s.nextIndex t)
    (hleaves : ∀ x ∈ live', ∃ leaf, t 0 x = some leaf ∧ leaf.parent = some (1, x / 2) ∧
      leaf.isLeftNode = (x % 2 == 0))
    (hlive : ∀ x ∈ live', x < m) : Shape { s with tree := t } w m live' :=
  { h with layers := hlayers, leaves := hleaves, live_lt := hlive }

/-- **The leaf of an address is removed**, and the leaves after it are counted. -/
theorem Shape.removeLeaf [DecidableEq Addr] (h : s.Shape w m live) (hw : m ≤ w) (hr : r ∈ live) :
    ∃ t leaf, s.tree 0 r = some leaf ∧
      s.removeLeaf r =
        .ok ({ s with tree := t }, some (live.filter (r < ·)).card, leaf.isMarked) ∧
      Shape { s with tree := t } w m (live.erase r) ∧ ∀ x, x ≠ r → t 0 x = s.tree 0 x := by
  obtain ⟨leaf, hleaf, hparent, hleft⟩ := h.leaves r hr
  have hsame : SameBut r live (live.erase r) := fun x hx => by simp [hx]
  obtain ⟨t, hup, hlayers, hleaves⟩ := h.updateSumsLeavesToRoot hsame
    (lt_of_lt_of_le (h.live_lt r hr) hw) hleaf hparent hleft false
    ⟨hr, Finset.notMem_erase r live⟩
  have hother : ∀ x, x ≠ r → t.set 0 r none 0 x = s.tree 0 x := by
    intro x hx
    rw [Tree.set_of_ne _ _ (by simpa using hx), hleaves, update_of_ne hx]
  refine ⟨t.set 0 r none, leaf, hleaf, ?_, h.set_leaves ?_ ?_ ?_, hother⟩
  · unfold StackDistCalc.removeLeaf
    rw [hup, h.laterCount_eq hw hr]
    dsimp only [bind, Except.bind]
    rw [Tree.deref_eq (by rw [hleaves, update_self])]
    rfl
  · intro i hi n hn
    exact hlayers i hi n hn
  · intro x hx
    rw [hother x (Finset.ne_of_mem_erase hx)]
    exact h.leaves x (Finset.mem_of_mem_erase hx)
  · exact fun x hx => h.live_lt x (Finset.mem_of_mem_erase hx)

/-- **A leaf is marked**, and the leaves after it are counted. -/
theorem Shape.markLeaf [DecidableEq Addr] (h : s.Shape w m live) (hw : m ≤ w) (hr : r ∈ live)
    (mark : Bool) :
    ∃ t leaf, s.tree 0 r = some leaf ∧
      s.markLeaf r mark =
        .ok ({ s with tree := t }, some (live.filter (r < ·)).card, leaf.isMarked) ∧
      Shape { s with tree := t } w m live ∧ t 0 r = some { leaf with isMarked := mark } ∧
      ∀ x, x ≠ r → t 0 x = s.tree 0 x := by
  obtain ⟨leaf, hleaf, hparent, hleft⟩ := h.leaves r hr
  have hother : ∀ x, x ≠ r →
      s.tree.set 0 r (some { leaf with isMarked := mark }) 0 x = s.tree 0 x := fun x hx =>
    Tree.set_of_ne _ _ (by simpa using hx)
  have hlayers : LayersOk s.depth m (fun _ => live) s.nextIndex
      (s.tree.set 0 r (some { leaf with isMarked := mark })) := by
    intro i hi n hn
    exact h.layers i hi n hn
  have hsum := getSum_spec (.inl hr) (h.lt_nextIndex (lt_of_lt_of_le (h.live_lt r hr) hw)) hlayers
    h.depth_pos (zero_add _)
  rw [laterCount_zero, pow_zero, Nat.div_one, pow_one, h.laterCount_eq hw hr] at hsum
  refine ⟨_, leaf, hleaf, ?_, h.set_leaves hlayers ?_ h.live_lt, Tree.set_self _ _ _ _, hother⟩
  · unfold StackDistCalc.markLeaf
    rw [Tree.deref_eq hleaf]
    dsimp only [bind, Except.bind]
    unfold StackDistCalc.getSumsLeavesToRoot
    rw [Tree.deref_eq (Tree.set_self _ _ _ _)]
    dsimp only [bind, Except.bind]
    rw [hparent, hleft]
    dsimp only [follow]
    rw [hparent, hleft] at hsum
    rw [hsum]
    rfl
  · intro x hx
    rcases eq_or_ne x r with rfl | hxr
    · exact ⟨_, Tree.set_self _ _ _ _, hparent, hleft⟩
    · rw [hother x hxr]
      exact h.leaves x hx

/-- The pointer of the new leaf: the node above it is there. -/
theorem Shape.pointer_eq (h : s.Shape (m + 1) m live) :
    s.tree.pointer 1 (s.nextIndex 1 - 1) = some (1, m / 2) := by
  have hnext := h.nextIndex 0 h.depth_pos
  obtain ⟨node, hnode, -⟩ := h.layers.exists_node h.depth_pos (.inr (le_refl m))
    (h.lt_nextIndex (Nat.lt_succ_self m) 0 h.depth_pos)
  rw [hnext]
  exact Tree.pointer_eq hnode

/-- The layers above do not see the new leaf yet. -/
theorem Shape.addLeaf_unseen (h : s.Shape w m live) (hfresh : s.index ∉ live) :
    s.addLeaf.Shape w m live := by
  refine ⟨h.depth_pos, h.le_pow_depth, h.pow_lt, ?_, ?_, ?_, h.live_lt⟩
  · intro i hi
    exact h.nextIndex i hi
  · intro i hi n hn
    exact h.layers i hi n hn
  · intro x hx
    dsimp only [addLeaf]
    rw [Tree.set_of_ne _ _ (by simpa using ne_of_mem_of_not_mem hx hfresh)]
    exact h.leaves x hx

/-- **The leaf of an access is added.** -/
theorem Shape.addLeaf (h : s.Shape (m + 1) m live) (hindex : s.index = m) :
    ∃ t next d, s.addLeaf.updateSumsLeavesToRoot s.index true =
        .ok ({ s with tree := t, nextIndex := next }, d) ∧
      Shape { s with tree := t, nextIndex := next } (m + 1) (m + 1) (insert m live) ∧
      (∃ leaf, t 0 m = some leaf ∧ leaf.isMarked = false) ∧ ∀ x, x ≠ m → t 0 x = s.tree 0 x := by
  subst hindex
  have hfresh : s.index ∉ live := fun hmem => lt_irrefl _ (h.live_lt _ hmem)
  have hunseen := h.addLeaf_unseen hfresh
  obtain ⟨leaf, hleaf, hparent, hleft, hmark⟩ : ∃ leaf, s.addLeaf.tree 0 s.index = some leaf ∧
      leaf.parent = some (1, s.index / 2) ∧ leaf.isLeftNode = (s.index % 2 == 0) ∧
      leaf.isMarked = false :=
    ⟨{  nodeIndex := s.index
        isLeftNode := s.index % 2 == 0
        parent := s.tree.pointer 1 (s.nextIndex 1 - 1) },
      Tree.set_self s.tree 0 s.index _, h.pointer_eq, rfl, rfl⟩
  have hsame : SameBut s.index live (insert s.index live) := fun x hx => by simp [hx]
  obtain ⟨t, hup, hlayers, hleaves⟩ := hunseen.updateSumsLeavesToRoot hsame (Nat.lt_succ_self _)
    hleaf hparent hleft true ⟨le_refl _, Finset.mem_insert_self _ _⟩
  have hself : t 0 s.index = some { leaf with sumLeft := 1 } := by
    rw [hleaves, update_self]
    rfl
  have hother : ∀ x, x ≠ s.index → t 0 x = s.tree 0 x := by
    intro x hx
    rw [hleaves, update_of_ne hx]
    dsimp only [StackDistCalc.addLeaf]
    rw [Tree.set_of_ne _ _ (by simpa using hx)]
  refine ⟨t, s.addLeaf.nextIndex, _, hup, ?_, ⟨_, hself, hmark⟩, hother⟩
  refine ⟨h.depth_pos, h.le_pow_depth, h.pow_lt, hunseen.nextIndex,
    hlayers.mono (Nat.le_succ _), ?_, ?_⟩
  · intro x hx
    dsimp only
    rcases Finset.mem_insert.mp hx with rfl | hx
    · exact ⟨_, hself, hparent, hleft⟩
    · rw [hother x (ne_of_mem_of_not_mem hx hfresh)]
      exact h.leaves x hx
  · intro x hx
    rcases Finset.mem_insert.mp hx with rfl | hx
    · exact Nat.lt_succ_self _
    · exact Nat.lt_succ_of_lt (h.live_lt x hx)

/-- `sanityCheckTree` finds the root. -/
theorem Shape.sanityCheckTree (h : s.Shape w m live) (hw : m ≤ w) (hr : r ∈ live) :
    s.sanityCheckTree r = .ok () := by
  have hpos := h.depth_pos
  obtain ⟨leaf, hleaf, hparent, -⟩ := h.leaves r hr
  have hnext := h.lt_nextIndex (lt_of_lt_of_le (h.live_lt r hr) hw)
  have hclimb := climb_spec (.inl hr) hnext h.layers (by omega : 0 + (s.depth - 1) < s.depth)
  obtain ⟨root, hroot, hok⟩ := h.layers.exists_node (by omega : s.depth - 1 < s.depth) (.inl hr)
    (hnext _ (by omega))
  unfold StackDistCalc.sanityCheckTree
  rw [Tree.deref_eq hleaf]
  dsimp only [bind, Except.bind]
  rw [hparent]
  dsimp only [follow]
  rw [zero_add, pow_one, zero_add] at hclimb
  rw [hclimb]
  dsimp only
  rw [Tree.deref_eq hroot]
  dsimp only
  have hnone : root.parent = none := by rw [hok.parent, if_pos (by omega)]
  rw [hnone]
  rfl

/-- **What `calcStackDistAndUpdate` does to add a leaf**: the checks succeed if the distance is the
one of `verifyStackDist`. -/
theorem Shape.addNew [DecidableEq Addr] (h : s.Shape s.index s.index live) {a : Addr}
    {dist : Option ℕ} (hdist : s.verifyStack = true → stackPosition s.stack a = dist) :
    ∃ D next t, s.addNew a dist = .ok { s with
        index := s.index + 1
        depth := D
        nextIndex := next
        tree := t
        stack := if s.verifyStack then a :: s.stack.erase a else s.stack } ∧
      Shape { s with depth := D, nextIndex := next, tree := t } (s.index + 1) (s.index + 1)
        (insert s.index live) ∧
      (∃ leaf, t 0 s.index = some leaf ∧ leaf.isMarked = false) ∧
      ∀ x, x ≠ s.index → t 0 x = s.tree 0 x := by
  obtain ⟨D, next₁, t₁, hprep, hleaves₁, hshape₁⟩ := h.updateTreeIfEven rfl
  obtain ⟨t, next, d, hadd, hshape, hnew, hother⟩ := hshape₁.addLeaf rfl
  refine ⟨D, next, t, ?_, hshape, hnew, fun x hx => (hother x hx).trans (congrFun hleaves₁ x)⟩
  have hsane := hshape.sanityCheckTree (le_refl _) (Finset.mem_insert_self _ _)
  have hverified : StackDistCalc.verifyNew
      { s with depth := D, nextIndex := next, tree := t } a dist = .ok { s with
        depth := D
        nextIndex := next
        tree := t
        stack := if s.verifyStack then a :: s.stack.erase a else s.stack } := by
    unfold StackDistCalc.verifyNew
    by_cases hverify : s.verifyStack = true
    · rw [if_pos hverify, if_pos hverify]
      rw [hsane]
      rw [checkDist, if_neg (fun hne => hne.2 (hdist hverify))]
      rfl
    · rw [if_neg hverify, if_neg hverify]
  unfold StackDistCalc.addNew
  dsimp only [bind, Except.bind] at hadd ⊢
  rw [hprep]
  dsimp only
  rw [hadd]
  dsimp only
  rw [hverified]
  rfl

end StackDistCalc
