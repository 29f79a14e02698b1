/-
# The trie

`Trie` (`src/base/trie.hh`), which maps prefixes of unsigned keys to values.  Nodes
live in a heap: an address is a natural number, `NULL` is `none`, and `head` is at
address 0.  Reading a node that is not there, a failed assertion and a panic are
errors; so is a loop that does not end, which runs on fuel here.  The recursion of
`remove` and the walks go from mask to longer or shorter mask, so that `w + 1` is
fuel enough.

* `Trie.insert`, `Trie.remove`, `Trie.lookup` — the operations.
* `Trie.Holds`          — the invariant: the heap holds a tree of nodes.
* `Holds.lookupHandle`  — the walk finds the shortest match.
-/
import Mathlib
import Gem5.TransitionSystem
import Gem5.PrefixMask
import Gem5.LinkedTree

open Function

structure TrieNode (w : ℕ) (V : Type) where
  key : BitVec w
  mask : BitVec w
  value : Option V
  parent : Option ℕ := none
  kids : Fin 2 → Option ℕ := fun _ => none

structure Trie (w : ℕ) (V : Type) where
  nodes : ℕ → Option (TrieNode w V)
  next : ℕ

variable {w : ℕ} {V : Type}

namespace TrieNode

/-- The constructor. -/
def new (key mask : BitVec w) (value : Option V) : TrieNode w V where
  key := key &&& mask
  mask := mask
  value := value

variable (n : TrieNode w V)

def «matches» (test : BitVec w) : Bool := test &&& n.mask = n.key

def setKid (i : Fin 2) (kid : Option ℕ) : TrieNode w V :=
  { n with kids := Function.update n.kids i kid }

theorem setKid_self (i : Fin 2) (kid : Option ℕ) : (n.setKid i kid).kids i = kid :=
  update_self ..

theorem setKid_of_ne {i j : Fin 2} (h : j ≠ i) (kid : Option ℕ) :
    (n.setKid i kid).kids j = n.kids j := update_of_ne h ..

/-- If there is only one kid, it's `kids[0]`. -/
def packKids : TrieNode w V :=
  if (n.kids 1).isSome ∧ (n.kids 0).isNone then (n.setKid 0 (n.kids 1)).setKid 1 none else n

end TrieNode

namespace Trie

/-! ## The heap -/

def create : Trie w V where
  nodes := Function.update (fun _ => none) 0 (some (.new 0 0 none))
  next := 1

variable (t : Trie w V)

variable (a : ℕ)

def node : Except Abort (TrieNode w V) :=
  match t.nodes a with
  | some n => .ok n
  | none => .error .undefined

def set (n : TrieNode w V) : Trie w V :=
  { t with nodes := Function.update t.nodes a (some n) }

/-- `new Node`, at the address `t.next`. -/
def alloc (n : TrieNode w V) : Trie w V :=
  { t.set t.next n with next := t.next + 1 }

def delete : Trie w V :=
  { t with nodes := Function.update t.nodes a none }

/-! ## Walking -/

/-- The kid, if there is one and it passes the test. -/
def testKid (test : TrieNode w V → Bool) : Option ℕ → Except Abort (Option ℕ)
  | none => .ok none
  | some k => do
    let n ← t.node k
    pure (if test n then some k else none)

/-- The first kid that passes the test. -/
def nextKid (n : TrieNode w V) (test : TrieNode w V → Bool) :
    Except Abort (Option ℕ) := do
  match ← t.testKid test (n.kids 0) with
  | some k => pure (some k)
  | none => t.testKid test (n.kids 1)

/-- Whether the key lies beyond the node. -/
def goesAfter (key newMask : BitVec w) (n : TrieNode w V) : Bool :=
  n.matches key && n.mask &&& newMask == n.mask

def extendMask (orig : BitVec w) : BitVec w := orig ||| (orig >>> 1) ||| (1#w <<< (w - 1))

def lookupFrom (t : Trie w V) (key : BitVec w) : ℕ → ℕ → Except Abort (Option ℕ)
  | 0, _ => .error .undefined
  | fuel + 1, a => do
    let n ← t.node a
    if n.value.isSome then pure (some a)
    else
      match ← t.nextKid n (·.matches key) with
      | some k => t.lookupFrom key fuel k
      | none => pure none

def lookupHandle (key : BitVec w) : Except Abort (Option ℕ) :=
  t.lookupFrom key (w + 1) 0

def lookup (key : BitVec w) : Except Abort (Option V) := do
  match ← t.lookupHandle key with
  | some a =>
    let n ← t.node a
    pure n.value
  | none => pure none

/-! ## Inserting -/

/-- Walk past the nodes that the new node will be inserted after. -/
def walkFrom (t : Trie w V) (key newMask : BitVec w) : ℕ → ℕ → Except Abort ℕ
  | 0, _ => .error .undefined
  | fuel + 1, a => do
    let n ← t.node a
    match ← t.nextKid n (goesAfter key newMask) with
    | some k => t.walkFrom key newMask fuel k
    | none => pure a

/-- Walk down the leg until something doesn't match or we run out of bits. -/
def legMask (key kidKey newMask : BitVec w) : ℕ → BitVec w → Except Abort (BitVec w)
  | 0, _ => .error .undefined
  | fuel + 1, lastMask =>
    if key &&& extendMask lastMask ≠ kidKey &&& extendMask lastMask ∨ lastMask = newMask then
      .ok lastMask
    else legMask key kidKey newMask fuel (extendMask lastMask)

/-- Add a new node as a kid of `a`. -/
def addKid (n : TrieNode w V) (i : Fin 2) (new : TrieNode w V) :
    ℕ × Trie w V :=
  (t.next, (t.alloc { new with parent := some a }).set a (n.setKid i (some t.next)))

/-- Put a new node between `a` and its kid `k`. -/
def splitKid (n : TrieNode w V) (i : Fin 2) (k : ℕ) (kid new : TrieNode w V) :
    Trie w V :=
  ((t.alloc ({ new with parent := some a }.setKid 0 (some k))).set k
    { kid with parent := some t.next }).set a (n.setKid i (some t.next))

/-- The loop over the kids. -/
def insertKid (t : Trie w V) (key newMask : BitVec w) (val : V) (a : ℕ) (n : TrieNode w V) :
    List (Fin 2) → BitVec w → Except Abort (ℕ × Trie w V)
  | [], _ => .error .assertion
  | i :: is, curMask =>
    match n.kids i with
    | none => .ok (t.addKid a n i (.new key newMask (some val)))
    | some k => do
      let kid ← t.node k
      let cur ← legMask key kid.key newMask (w + 1) curMask
      if cur = n.mask then t.insertKid key newMask val a n is cur
      else if cur = newMask then
        pure (t.next, t.splitKid a n i k kid (.new key cur (some val)))
      else
        let mid := { (TrieNode.new key cur none : TrieNode w V) with parent := some a }.setKid 0 (some k)
        pure ((t.splitKid a n i k kid (.new key cur none)).addKid t.next mid 1
          (.new key newMask (some val)))

protected def insert (key : BitVec w) (width : ℕ) (val : V) : Except Abort (ℕ × Trie w V) := do
  let newMask := if width < w then BitVec.allOnes w <<< (w - width) else BitVec.allOnes w
  let a ← t.walkFrom (key &&& newMask) newMask (w + 1) 0
  let n ← t.node a
  if n.mask = newMask then
    if n.value.isSome then .error .assertion
    else pure (a, t.set a { n with value := some val })
  else t.insertKid (key &&& newMask) newMask val a n [0, 1] n.mask

/-! ## Removing -/

/-- Fix up the kid's parent pointer. -/
def setParent (kid : Option ℕ) (parent : ℕ) : Except Abort (Trie w V) :=
  match kid with
  | none => .ok t
  | some k => do
    let n ← t.node k
    pure (t.set k { n with parent := some parent })

/-- Figure out which kid `a` is and update the parent's pointers. -/
def replaceKid (parent a : ℕ) (kid : Option ℕ) : Except Abort (Trie w V) := do
  let p ← t.node parent
  if p.kids 0 = some a then pure (t.set parent (p.setKid 0 kid).packKids)
  else if p.kids 1 = some a then pure (t.set parent (p.setKid 1 kid).packKids)
  else .error .assertion

def removeNode (t : Trie w V) : ℕ → ℕ → Except Abort (Option V × Trie w V)
  | 0, _ => .error .undefined
  | fuel + 1, a => do
    let n ← t.node a
    if (n.kids 1).isSome then
      if n.value.isSome then pure (n.value, t.set a { n with value := none })
      else .error .assertion
    else
      match n.parent with
      | none => .error .assertion
      | some parent =>
        let t ← t.setParent (n.kids 0) parent
        let t ← t.replaceKid parent a (n.kids 0)
        let p ← t.node parent
        if (p.kids 1).isNone ∧ p.value.isNone ∧ p.parent.isSome then
          let rest ← t.removeNode fuel parent
          pure (n.value, rest.2.delete a)
        else pure (n.value, t.delete a)

/-- `remove(Handle)`. -/
def remove : Except Abort (Option V × Trie w V) := t.removeNode (w + 1) a

/-- `remove(Key)`. -/
def removeKey (key : BitVec w) : Except Abort (Option V × Trie w V) := do
  match ← t.lookupHandle key with
  | none => pure (none, t)
  | some a => t.remove a

end Trie

/-! ## The shape of the nodes -/

namespace TrieNode

def width (n : TrieNode w V) : ℕ := maskWidth n.mask

/-- What places a node in the trie: the key and the number of bits that count. -/
def label (n : TrieNode w V) : BitVec w × ℕ := (n.key, n.width)

/-- The second label is longer, and the keys agree in the bits of the first. -/
def Above (l m : BitVec w × ℕ) : Prop := l.2 < m.2 ∧ Agree l.2 m.1 l.1

/-- The keys of the second and the third label differ in the bit after those of the first. -/
def Apart (l m n : BitVec w × ℕ) : Prop := m.1.getMsbD l.2 ≠ n.1.getMsbD l.2

/-- The mask keeps the first bits, and the key has no other ones. -/
def Normal (n : TrieNode w V) : Prop := n.mask = prefixMask w n.width ∧ n.key &&& n.mask = n.key

theorem labelOrder : LabelOrder (Prod.snd : BitVec w × ℕ → ℕ) Above Apart where
  rank_lt := fun h => h.1
  trans := fun h h' => ⟨h.1.trans h'.1, (h'.2.mono h.1.le).trans h.2⟩
  irrefl := fun h => h rfl
  symm := Ne.symm
  congr := by
    intro l m n z hlm hmn
    unfold Apart
    rw [hmn.2 l.2 hlm.1]

variable {n : TrieNode w V} {key : BitVec w} {m : ℕ}

theorem width_le : n.width ≤ w := maskWidth_le _

theorem Normal.matches_iff (h : n.Normal) : n.matches key = true ↔ Agree n.width key n.key := by
  unfold «matches»
  rw [decide_eq_true_iff, ← and_prefixMask_eq_iff width_le, ← h.1, h.2]

theorem Normal.goesAfter_iff (h : n.Normal) (hm : m ≤ w) :
    Trie.goesAfter key (prefixMask w m) n = true ↔ Agree n.width key n.key ∧ n.width ≤ m := by
  unfold Trie.goesAfter
  rw [Bool.and_eq_true, h.matches_iff, beq_iff_eq, h.1, prefixMask_and_eq_left_iff width_le hm]

theorem width_new (hm : m ≤ w) (v : Option V) : (new key (prefixMask w m) v).width = m :=
  maskWidth_prefixMask hm

theorem normal_new (hm : m ≤ w) (v : Option V) : (new key (prefixMask w m) v).Normal := by
  unfold Normal
  rw [width_new hm]
  refine ⟨rfl, ?_⟩
  show key &&& prefixMask w m &&& prefixMask w m = key &&& prefixMask w m
  rw [BitVec.and_assoc, BitVec.and_self]

theorem label_new (key : BitVec w) (hm : m ≤ w) (v : Option V) :
    (new key (prefixMask w m) v).label = (key &&& prefixMask w m, m) :=
  Prod.ext rfl (width_new hm v)

end TrieNode

/-- Only pointers are different. -/
def TrieNode.SameData (n n' : TrieNode w V) : Prop :=
  n'.key = n.key ∧ n'.mask = n.mask ∧ n'.value = n.value

theorem TrieNode.SameData.trans {n n' n'' : TrieNode w V} (h : n.SameData n') (h' : n'.SameData n'') :
    n.SameData n'' := ⟨h'.1.trans h.1, h'.2.1.trans h.2.1, h'.2.2.trans h.2.2⟩

theorem TrieNode.SameData.label {n n' : TrieNode w V} (h : n.SameData n') : n'.label = n.label := by
  unfold TrieNode.label TrieNode.width
  rw [h.1, h.2.1]

theorem TrieNode.SameData.normal {n n' : TrieNode w V} (h : n.SameData n') (hn : n.Normal) :
    n'.Normal := by
  unfold TrieNode.Normal TrieNode.width
  rw [h.1, h.2.1]
  exact hn

/-- Heap and nodes are updated together. -/
theorem update_some {α : Type} {f : ℕ → Option α} {N : ℕ → α} {A : Set ℕ}
    (h : ∀ b ∈ A, f b = some (N b)) (x : ℕ) (n : α) :
    ∀ b ∈ insert x A, update f x (some n) b = some (update N x n b) := by
  intro b hb
  by_cases hbx : b = x
  · rw [hbx, update_self, update_self]
  · rw [update_of_ne hbx, update_of_ne hbx]
    exact h b (hb.resolve_left hbx)

/-- The pointers of the nodes. -/
def links (N : ℕ → TrieNode w V) : Links ℕ (BitVec w × ℕ) where
  label a := (N a).label
  parent a := (N a).parent
  kids a := (N a).kids

namespace Trie

/-- The heap holds a trie: the nodes `N` at the addresses `A`.  A node without a value has two kids,
those in `X` excepted. -/
structure Holds (t : Trie w V) (A : Set ℕ) (N : ℕ → TrieNode w V) (X : Set ℕ) : Prop where
  nodes : ∀ a ∈ A, t.nodes a = some (N a)
  fresh : ∀ a ∈ A, a < t.next
  normal : ∀ a ∈ A, (N a).Normal
  head : (N 0).width = 0 ∧ (N 0).value = none
  tree : LinkedTree TrieNode.Above TrieNode.Apart 0 A (links N)
  full : ∀ a ∈ A, a ∉ X → a ≠ 0 → (N a).value = none → (N a).kids 1 ≠ none

variable {t : Trie w V} {A X : Set ℕ} {N : ℕ → TrieNode w V} {a k : ℕ} {i : Fin 2} {key : BitVec w}

section

variable (h : t.Holds A N X) (ha : a ∈ A)

include h ha

theorem Holds.node : t.node a = .ok (N a) := by
  unfold Trie.node
  rw [h.nodes a ha]

theorem Holds.kid_mem (hk : (N a).kids i = some k) : k ∈ A :=
  (h.tree.down a ha i k hk).1

theorem Holds.kid_above (hk : (N a).kids i = some k) :
    (N a).width < (N k).width ∧ Agree (N a).width (N k).key (N a).key :=
  (h.tree.down a ha i k hk).2.2

/-! ### Walking -/

theorem Holds.testKid (test : TrieNode w V → Bool) (i : Fin 2) :
    ∃ res, t.testKid test ((N a).kids i) = .ok res ∧
      (∀ k, res = some k → (N a).kids i = some k ∧ test (N k) = true) ∧
      (res = none → ∀ k, (N a).kids i = some k → test (N k) = false) := by
  cases hkid : (N a).kids i with
  | none => exact ⟨none, rfl, nofun, nofun⟩
  | some k =>
    refine ⟨if test (N k) then some k else none, ?_, ?_, ?_⟩
    · show (t.node k >>= _) = _
      rw [h.node (h.kid_mem ha hkid)]
      rfl
    · intro k' hk'
      split at hk'
      · rename_i htest
        cases hk'
        exact ⟨rfl, htest⟩
      · cases hk'
    · intro hnone k' hk'
      cases hk'
      split at hnone
      · cases hnone
      · rename_i htest
        exact Bool.eq_false_iff.mpr htest

theorem Holds.nextKid (test : TrieNode w V → Bool) :
    ∃ res, t.nextKid (N a) test = .ok res ∧
      (∀ k, res = some k → ∃ i, (N a).kids i = some k ∧ test (N k) = true) ∧
      (res = none → ∀ i k, (N a).kids i = some k → test (N k) = false) := by
  obtain ⟨res₀, heq₀, hsome₀, hnone₀⟩ := h.testKid ha test 0
  obtain ⟨res₁, heq₁, hsome₁, hnone₁⟩ := h.testKid ha test 1
  unfold Trie.nextKid
  rw [heq₀]
  cases res₀ with
  | some k =>
    refine ⟨some k, rfl, ?_, nofun⟩
    rintro _ ⟨⟩
    exact ⟨0, hsome₀ k rfl⟩
  | none =>
    refine ⟨res₁, heq₁, fun k hk => ⟨1, hsome₁ k hk⟩, fun hnone i k hk => ?_⟩
    have hi : i = 0 ∨ i = 1 := by omega
    rcases hi with rfl | rfl
    · exact hnone₀ rfl k hk
    · exact hnone₁ hnone k hk

/-- The key matches only one of two kids. -/
theorem Holds.kid_eq_of_agree {j : Fin 2} {k' : ℕ}
    (hk : (N a).kids i = some k) (hk' : (N a).kids j = some k')
    (hagree : Agree (N k).width key (N k).key) (hagree' : Agree (N k').width key (N k').key) :
    k = k' := by
  by_contra hne
  have hij : i ≠ j := by
    rintro rfl
    exact hne (Option.some.inj (hk.symm.trans hk'))
  refine h.tree.apart_of_kids TrieNode.labelOrder ha hk hk' hij ?_
  show (N k).key.getMsbD (N a).width = (N k').key.getMsbD (N a).width
  rw [← hagree _ (h.kid_above ha hk).1, ← hagree' _ (h.kid_above ha hk').1]

/-- A key that matches a node matches those above it. -/
theorem Holds.agree_of_below {b : ℕ}
    (hab : LinkedTree.Below (links N) a b) (hb : Agree (N b).width key (N b).key) :
    Agree (N a).width key (N a).key := by
  rcases (h.tree.below_spec TrieNode.labelOrder ha hab).2 with rfl | habove
  · exact hb
  · exact (hb.mono habove.1.le).trans habove.2

end

/-- `b` is the shortest of the nodes with a value that match the key. -/
def Shortest (A : Set ℕ) (N : ℕ → TrieNode w V) (key : BitVec w) (b : ℕ) : Prop :=
  b ∈ A ∧ (N b).value ≠ none ∧ Agree (N b).width key (N b).key ∧
    ∀ c ∈ A, (N c).value ≠ none → Agree (N c).width key (N c).key →
      c = b ∨ (N b).width < (N c).width

/-- From a node that matches the key and is above all that do, with a value, the walk finds the
shortest of them. -/
theorem Holds.lookupFrom {fuel : ℕ} (h : t.Holds A N X) (ha : a ∈ A)
    (hagree : Agree (N a).width key (N a).key)
    (hall : ∀ b ∈ A, (N b).value ≠ none → Agree (N b).width key (N b).key →
      LinkedTree.Below (links N) a b)
    (hfuel : w < fuel + (N a).width) :
    ∃ res, t.lookupFrom key fuel a = .ok res ∧ (∀ b, res = some b → Shortest A N key b) ∧
      (res = none → ∀ b ∈ A, (N b).value ≠ none → ¬ Agree (N b).width key (N b).key) := by
  induction fuel generalizing a with
  | zero =>
    have := (N a).width_le
    omega
  | succ fuel ih =>
    unfold Trie.lookupFrom
    rw [h.node ha]
    show ∃ res, (if (N a).value.isSome = true then _ else _) = Except.ok res ∧ _
    cases hvalue : (N a).value with
    | some v =>
      refine ⟨some a, rfl, ?_, nofun⟩
      rintro _ ⟨⟩
      refine ⟨ha, by rw [hvalue]; exact Option.some_ne_none v, hagree, fun c hc hcv hcagree => ?_⟩
      obtain ⟨-, hcases⟩ := h.tree.below_spec TrieNode.labelOrder ha (hall c hc hcv hcagree)
      exact hcases.imp id And.left
    | none =>
      obtain ⟨res, hres, hsome, hnone⟩ := h.nextKid ha (·.matches key)
      rw [hres]
      -- a match with a value is below a kid that matches
      have hkid : ∀ b ∈ A, (N b).value ≠ none → Agree (N b).width key (N b).key →
          ∃ j k', (N a).kids j = some k' ∧ LinkedTree.Below (links N) k' b ∧
            Agree (N k').width key (N k').key := by
        intro b hb hbv hbagree
        rcases LinkedTree.below_cases (hall b hb hbv hbagree) with rfl | ⟨j, k', hk', hbelow⟩
        · exact absurd hvalue hbv
        · exact ⟨j, k', hk', hbelow, h.agree_of_below (h.kid_mem ha hk') hbelow hbagree⟩
      cases res with
      | none =>
        refine ⟨none, rfl, nofun, fun _ b hb hbv hbagree => ?_⟩
        obtain ⟨j, k', hk', -, hk'agree⟩ := hkid b hb hbv hbagree
        have hfalse := hnone rfl j k' hk'
        rw [((h.normal k' (h.kid_mem ha hk')).matches_iff).mpr hk'agree] at hfalse
        cases hfalse
      | some k =>
        obtain ⟨i, hk, hmatch⟩ := hsome k rfl
        have hkA := h.kid_mem ha hk
        have hkagree := (h.normal k hkA).matches_iff.mp hmatch
        refine ih hkA hkagree (fun b hb hbv hbagree => ?_) ?_
        · obtain ⟨j, k', hk', hbelow, hk'agree⟩ := hkid b hb hbv hbagree
          rwa [h.kid_eq_of_agree ha hk hk' hkagree hk'agree]
        · have := (h.kid_above ha hk).1
          omega

theorem Holds.lookupHandle (h : t.Holds A N X) (key : BitVec w) :
    ∃ res, t.lookupHandle key = .ok res ∧ (∀ b, res = some b → Shortest A N key b) ∧
      (res = none → ∀ b ∈ A, (N b).value ≠ none → ¬ Agree (N b).width key (N b).key) := by
  have hzero : (N 0).width = 0 := h.head.1
  refine h.lookupFrom h.tree.root ?_ (fun b hb _ _ => h.tree.reaches TrieNode.labelOrder b hb) ?_
  · rw [hzero]
    exact nofun
  · omega

/-- The walk of `insert` ends at a node that matches, with no kid that does within the mask. -/
theorem Holds.walkFrom {m : ℕ} (h : t.Holds A N X) (key : BitVec w) (fuel : ℕ) (hm : m ≤ w) (ha : a ∈ A)
    (hagree : Agree (N a).width key (N a).key) (hle : (N a).width ≤ m)
    (hfuel : w < fuel + (N a).width) :
    ∃ b ∈ A, t.walkFrom key (prefixMask w m) fuel a = .ok b ∧
      Agree (N b).width key (N b).key ∧ (N b).width ≤ m ∧
      ∀ i k, (N b).kids i = some k → Agree (N k).width key (N k).key → m < (N k).width := by
  induction fuel generalizing a with
  | zero =>
    omega
  | succ fuel ih =>
    unfold Trie.walkFrom
    rw [h.node ha]
    obtain ⟨res, hres, hsome, hnone⟩ := h.nextKid ha (goesAfter key (prefixMask w m))
    show ∃ b ∈ A, (t.nextKid (N a) _ >>= _) = Except.ok b ∧ _
    rw [hres]
    cases res with
    | none =>
      refine ⟨a, ha, rfl, hagree, hle, fun i k hk hkagree => ?_⟩
      have hfalse := hnone rfl i k hk
      rw [Bool.eq_false_iff, ne_eq, (h.normal k (h.kid_mem ha hk)).goesAfter_iff hm] at hfalse
      exact not_le.mp fun hkle => hfalse ⟨hkagree, hkle⟩
    | some k =>
      obtain ⟨i, hk, htest⟩ := hsome k rfl
      have hkA := h.kid_mem ha hk
      obtain ⟨hkagree, hkle⟩ := ((h.normal k hkA).goesAfter_iff hm).mp htest
      refine ih hkA hkagree hkle ?_
      have := (h.kid_above ha hk).1
      omega

end Trie
