/-
# Inserting into the trie

`insert` keeps the invariant of `Gem5.Trie`: the new node goes into an empty place,
between a node and its kid, or below a new node where the key and the kid part.

* `legMask_spec`        — the walk down a leg ends where the keys part.
* `Holds.addKid`, `Holds.splitKid` — the two changes of the tree.
* `Trie.Inserted`       — what `insert` does to the nodes.
* `Holds.insert`        — it does so, and the panic at its end is not reached.
-/
import Mathlib
import Gem5.Trie

open Function

variable {w : ℕ} {V : Type}

namespace Trie

variable {t : Trie w V} {A X : Set ℕ} {N : ℕ → TrieNode w V} {a k : ℕ} {i : Fin 2} {key : BitVec w}

/-! ### Masks -/

variable {m b : ℕ} {n : TrieNode w V}

theorem extendMask_prefixMask (h : m < w) :
    extendMask (prefixMask w m) = prefixMask w (m + 1) := by
  refine BitVec.eq_of_getMsbD_eq fun i hi => ?_
  unfold extendMask
  rw [BitVec.getMsbD_or, BitVec.getMsbD_or, BitVec.getMsbD_ushiftRight, getMsbD_prefixMask h.le, getMsbD_prefixMask h.le, getMsbD_prefixMask h]
  rcases eq_or_ne i 0 with rfl | hzero
  · simp
    omega
  · rw [Bool.eq_iff_iff]
    simp
    omega

/-- The leg is walked as long as the keys agree. -/
theorem legMask_spec {kidKey : BitVec w} {fuel l : ℕ} (hm : m ≤ w) (hle : l ≤ m)
    (hagree : Agree l key kidKey) (hfuel : m < fuel + l) :
    ∃ l', legMask key kidKey (prefixMask w m) fuel (prefixMask w l) = .ok (prefixMask w l') ∧
      l ≤ l' ∧ l' ≤ m ∧ Agree l' key kidKey ∧ (l' < m → key.getMsbD l' ≠ kidKey.getMsbD l') := by
  induction fuel generalizing l with
  | zero => omega
  | succ fuel ih =>
    unfold legMask
    rcases eq_or_ne l m with rfl | hlm
    · rw [if_pos (.inr rfl)]
      exact ⟨l, rfl, le_rfl, le_rfl, hagree, fun hlt => absurd hlt (lt_irrefl l)⟩
    · have hlt : l < m := lt_of_le_of_ne hle hlm
      have hne : prefixMask w l ≠ prefixMask w m := mt (prefixMask_inj (hle.trans hm) hm).mp hlm
      rw [extendMask_prefixMask (hlt.trans_le hm)]
      by_cases hbit : key.getMsbD l = kidKey.getMsbD l
      · have hnext : Agree (l + 1) key kidKey := by
          intro i hi
          rcases Nat.lt_succ_iff_lt_or_eq.mp hi with hi | rfl
          · exact hagree i hi
          · exact hbit
        rw [if_neg (not_or.mpr ⟨not_not.mpr ((and_prefixMask_eq_iff (by omega)).mpr hnext), hne⟩)]
        obtain ⟨l', heq, hle', hrest⟩ := ih hlt hnext (by omega)
        exact ⟨l', heq, by omega, hrest⟩
      · have hdiff : key &&& prefixMask w (l + 1) ≠ kidKey &&& prefixMask w (l + 1) := fun heq =>
          hbit ((and_prefixMask_eq_iff (by omega)).mp heq l (Nat.lt_succ_self l))
        rw [if_pos (.inl hdiff)]
        exact ⟨l, rfl, le_rfl, hle, hagree, fun _ => hbit⟩

/-! ### Adding nodes -/

/-- A second kid stays a second kid, or another one takes its place. -/
theorem TrieNode.setKid_second (h : n.kids 1 ≠ none) (i : Fin 2) (x : ℕ) :
    (n.setKid i (some x)).kids 1 ≠ none := by
  show update n.kids i (some x) 1 ≠ none
  by_cases hi : 1 = i
  · rw [← hi]
    exact Option.some_ne_none _
  · rwa [update_of_ne hi]

theorem Holds.next_notMem (h : t.Holds A N X) : t.next ∉ A :=
  fun hmem => lt_irrefl _ (h.fresh _ hmem)

theorem Holds.addKid {leaf : TrieNode w V} (h : t.Holds A N X) (ha : a ∈ A)
    (hnone : (N a).kids i = none) (hfirst : i = 1 → (N a).kids 0 ≠ none) (hleaf : leaf.Normal)
    (hvalue : leaf.value ≠ none) (hkids : ∀ j, leaf.kids j = none)
    (habove : TrieNode.Above (N a).label leaf.label)
    (hapart : ∀ y, (N a).kids 0 = some y → TrieNode.Apart (N a).label (N y).label leaf.label) :
    ∃ N', (t.addKid a (N a) i leaf).2.Holds (insert t.next A) N' X ∧
      (∀ b ∈ A, (N b).SameData (N' b)) ∧ leaf.SameData (N' t.next) ∧
      N' a = (N a).setKid i (some t.next) := by
  have hx := h.next_notMem
  have hax : a ≠ t.next := fun heq => hx (heq ▸ ha)
  set N' := update (update N t.next { leaf with parent := some a }) a
    ((N a).setKid i (some t.next)) with hN'
  have hNa : N' a = (N a).setKid i (some t.next) := update_self ..
  have hNx : N' t.next = { leaf with parent := some a } := by
    rw [hN', update_of_ne hax.symm, update_self]
  have hNb : ∀ b ∈ A, b ≠ a → N' b = N b := by
    intro b hb hba
    rw [hN', update_of_ne hba, update_of_ne fun heq : b = t.next => hx (heq ▸ hb)]
  have hdata : ∀ b ∈ A, (N b).SameData (N' b) := by
    intro b hb
    by_cases hba : b = a
    · rw [hba, hNa]
      exact ⟨rfl, rfl, rfl⟩
    · rw [hNb b hb hba]
      exact ⟨rfl, rfl, rfl⟩
  refine ⟨N', ?_, hdata, hNx ▸ ⟨rfl, rfl, rfl⟩, hNa⟩
  constructor
  · intro b hb
    have hupdate := update_some (update_some h.nodes t.next { leaf with parent := some a }) a
      ((N a).setKid i (some t.next))
    exact hupdate b (Set.mem_insert_of_mem _ hb)
  · rintro b (rfl | hb)
    · exact Nat.lt_succ_self _
    · exact Nat.lt_succ_of_lt (h.fresh b hb)
  · rintro b (rfl | hb)
    · rw [hNx]
      exact hleaf
    · exact (hdata b hb).normal (h.normal b hb)
  · have hzero := hdata 0 h.tree.root
    unfold TrieNode.width
    rw [hzero.2.1, hzero.2.2]
    exact h.head
  · refine h.tree.addLeaf (M := links N') hx ha hnone hfirst ?_ ?_ (fun b hb => (hdata b hb).label)
      ?_ ?_ ?_ ?_ ?_
    · show TrieNode.Above (N a).label (N' t.next).label
      rw [hNx]
      exact habove
    · intro y hy
      show TrieNode.Apart (N a).label (N y).label (N' t.next).label
      rw [hNx]
      exact hapart y hy
    · intro b hb
      show (N' b).parent = (N b).parent
      by_cases hba : b = a
      · rw [hba, hNa]
        rfl
      · rw [hNb b hb hba]
    · intro b hb hba
      exact congrArg TrieNode.kids (hNb b hb hba)
    · exact congrArg TrieNode.parent hNx
    · intro j
      show (N' t.next).kids j = none
      rw [hNx]
      exact hkids j
    · exact congrArg TrieNode.kids hNa
  · rintro b (rfl | hb) hX hb0 hbv
    · rw [hNx] at hbv
      exact absurd hbv hvalue
    · rw [(hdata b hb).2.2] at hbv
      have hone := h.full b hb hX hb0 hbv
      rcases eq_or_ne b a with rfl | hba
      · rw [hNa]
        exact TrieNode.setKid_second hone i t.next
      · rwa [hNb b hb hba]

/-- A node that has a value or two kids is no exception. -/
theorem Holds.drop_exception {x : ℕ} (h : t.Holds A N (insert x X))
    (hx : x ∈ A → x ≠ 0 → (N x).value = none → (N x).kids 1 ≠ none) : t.Holds A N X :=
  { h with
    full := by
      intro b hb hbX hb0 hbv
      rcases eq_or_ne b x with rfl | hbx
      · exact hx hb hb0 hbv
      · exact h.full b hb (fun hmem => hmem.elim hbx hbX) hb0 hbv }

/-- Change the value of a node. -/
theorem Holds.setValue (h : t.Holds A N X) (ha : a ∈ A) (ha0 : a ≠ 0) (v : Option V)
    (hv : v = none → (N a).kids 1 ≠ none) :
    (t.set a { N a with value := v }).Holds A (update N a { N a with value := v }) X := by
  have hNb : ∀ b, b ≠ a → update N a { N a with value := v } b = N b :=
    fun b hba => update_of_ne hba ..
  have hlinks : links (update N a { N a with value := v }) = links N := by
    unfold links
    congr 1 <;> funext b <;> rcases eq_or_ne b a with rfl | hba
    case e_label.inl => rw [update_self]; rfl
    all_goals first | rw [hNb b hba] | rw [update_self]
  constructor
  · exact fun b hb => update_some h.nodes a _ b (Set.mem_insert_of_mem _ hb)
  · exact h.fresh
  · intro b hb
    by_cases hba : b = a
    · rw [hba, update_self]
      exact h.normal a ha
    · rw [hNb b hba]
      exact h.normal b hb
  · rw [hNb 0 ha0.symm]
    exact h.head
  · rw [hlinks]
    exact h.tree
  · intro b hb hbX hb0 hbv
    by_cases hba : b = a
    · rw [hba, update_self] at hbv ⊢
      exact hv hbv
    · rw [hNb b hba] at hbv ⊢
      exact h.full b hb hbX hb0 hbv

theorem Holds.splitKid {new : TrieNode w V} (h : t.Holds A N X) (ha : a ∈ A)
    (hk : (N a).kids i = some k) (hnew : new.Normal) (hkids : ∀ j, new.kids j = none)
    (habove : TrieNode.Above (N a).label new.label)
    (hbelow : TrieNode.Above new.label (N k).label) :
    ∃ N', (t.splitKid a (N a) i k (N k) new).Holds (insert t.next A) N' (insert t.next X) ∧
      (∀ b ∈ A, (N b).SameData (N' b)) ∧
      N' t.next = { new with parent := some a }.setKid 0 (some k) := by
  have hkA := h.kid_mem ha hk
  have hx := h.next_notMem
  have hax : a ≠ t.next := fun heq => hx (heq ▸ ha)
  have hkx : k ≠ t.next := fun heq => hx (heq ▸ hkA)
  have hka : k ≠ a := h.tree.kid_ne TrieNode.labelOrder ha hk
  set mid : TrieNode w V := { new with parent := some a }.setKid 0 (some k) with hmid
  set N' := update (update (update N t.next mid) k
    { N k with parent := some t.next }) a ((N a).setKid i (some t.next)) with hN'
  have hNa : N' a = (N a).setKid i (some t.next) := update_self ..
  have hNk : N' k = { N k with parent := some t.next } := by
    rw [hN', update_of_ne hka, update_self]
  have hNx : N' t.next = mid := by
    rw [hN', update_of_ne hax.symm, update_of_ne hkx.symm, update_self]
  have hNb : ∀ b ∈ A, b ≠ a → b ≠ k → N' b = N b := by
    intro b hb hba hbk
    have hbx : b ≠ t.next := fun heq => hx (heq ▸ hb)
    rw [hN', update_of_ne hba, update_of_ne hbk, update_of_ne hbx]
  have hdata : ∀ b ∈ A, (N b).SameData (N' b) := by
    intro b hb
    by_cases hba : b = a
    · rw [hba, hNa]
      exact ⟨rfl, rfl, rfl⟩
    · by_cases hbk : b = k
      · rw [hbk, hNk]
        exact ⟨rfl, rfl, rfl⟩
      · rw [hNb b hb hba hbk]
        exact ⟨rfl, rfl, rfl⟩
  have hkids' : ∀ b ∈ A, b ≠ a → (N' b).kids = (N b).kids := by
    intro b hb hba
    by_cases hbk : b = k
    · rw [hbk, hNk]
    · rw [hNb b hb hba hbk]
  refine ⟨N', ?_, hdata, hNx⟩
  constructor
  · intro b hb
    have hupdate := update_some (update_some (update_some h.nodes t.next mid) k
      { N k with parent := some t.next }) a ((N a).setKid i (some t.next))
    exact hupdate b (Set.mem_insert_of_mem _ (Set.mem_insert_of_mem _ hb))
  · rintro b (rfl | hb)
    · exact Nat.lt_succ_self _
    · exact Nat.lt_succ_of_lt (h.fresh b hb)
  · rintro b (rfl | hb)
    · rw [hNx]
      exact hnew
    · exact (hdata b hb).normal (h.normal b hb)
  · have hzero := hdata 0 h.tree.root
    unfold TrieNode.width
    rw [hzero.2.1, hzero.2.2]
    exact h.head
  · have hlabel : (N' t.next).label = new.label := by
      rw [hNx]
      rfl
    refine h.tree.splitEdge (M := links N') TrieNode.labelOrder hx ha hk ?_ ?_
      (fun b hb => (hdata b hb).label) ?_ hkids' ?_ ?_ ?_ ?_ ?_
    · show TrieNode.Above (N a).label (N' t.next).label
      rwa [hlabel]
    · show TrieNode.Above (N' t.next).label (N k).label
      rwa [hlabel]
    · intro b hb hbk
      show (N' b).parent = (N b).parent
      by_cases hba : b = a
      · rw [hba, hNa]
        rfl
      · rw [hNb b hb hba hbk]
    · exact congrArg TrieNode.parent hNx
    · exact congrArg TrieNode.parent hNk
    · exact congrFun (congrArg TrieNode.kids hNx) 0
    · exact (congrFun (congrArg TrieNode.kids hNx) 1).trans (hkids 1)
    · exact congrArg TrieNode.kids hNa
  · rintro b (rfl | hb) hX hb0 hbv
    · exact absurd (Set.mem_insert ..) hX
    · rw [(hdata b hb).2.2] at hbv
      have hone := h.full b hb (fun hmem => hX (Set.mem_insert_of_mem _ hmem)) hb0 hbv
      rcases eq_or_ne b a with rfl | hba
      · rw [hNa]
        exact TrieNode.setKid_second hone i t.next
      · rwa [hkids' b hb hba]

/-! ### Inserting -/

/-- What `insert` has done: the nodes that were there keep their data, and the node at the handle has
the new key and value. -/
structure Inserted (t : Trie w V) (A : Set ℕ) (N : ℕ → TrieNode w V) (key : BitVec w) (m : ℕ) (val : V)
    (handle : ℕ) (t' : Trie w V) (A' : Set ℕ) (N' : ℕ → TrieNode w V) : Prop where
  holds : t'.Holds A' N' ∅
  mem : handle ∈ A'
  unused : handle ∈ A → (N handle).value = none
  data : (N' handle).key = key ∧ (N' handle).width = m ∧ (N' handle).value = some val
  keeps : ∀ b ∈ A, b ≠ handle → b ∈ A' ∧ (N b).SameData (N' b)
  others : ∀ b ∈ A', b ∉ A → b ≠ handle → (N' b).value = none
  domain : ∀ b, t'.nodes b ≠ none → t.nodes b ≠ none ∨ b ∈ A'

theorem nodes_set_ne {x : ℕ} (h : (t.set x n).nodes b ≠ none) :
    t.nodes b ≠ none ∨ b = x := by
  by_cases hbx : b = x
  · exact .inr hbx
  · refine .inl fun hnone => h ?_
    exact (update_of_ne hbx ..).trans hnone

theorem nodes_addKid_ne {leaf : TrieNode w V} (h : (t.addKid a n i leaf).2.nodes b ≠ none) :
    t.nodes b ≠ none ∨ b = a ∨ b = t.next := by
  rcases nodes_set_ne h with h | rfl
  · exact (nodes_set_ne h).imp id .inr
  · exact .inr (.inl rfl)

theorem nodes_splitKid_ne {kid new : TrieNode w V}
    (h : (t.splitKid a n i k kid new).nodes b ≠ none) :
    t.nodes b ≠ none ∨ b = a ∨ b = k ∨ b = t.next := by
  rcases nodes_set_ne h with h | rfl
  · rcases nodes_set_ne h with h | rfl
    · exact (nodes_set_ne h).imp id fun hb => .inr (.inr hb)
    · exact .inr (.inr (.inl rfl))
  · exact .inr (.inl rfl)

theorem insertKid_cons {newMask cur l : BitVec w} {val : V} {kid : TrieNode w V} {is : List (Fin 2)}
    (hk : n.kids i = some k) (hkid : t.node k = .ok kid)
    (hleg : legMask key kid.key newMask (w + 1) cur = .ok l) :
    t.insertKid key newMask val a n (i :: is) cur =
      if l = n.mask then t.insertKid key newMask val a n is l
      else if l = newMask then .ok (t.next, t.splitKid a n i k kid (.new key l (some val)))
      else .ok ((t.splitKid a n i k kid (.new key l none)).addKid t.next
        ({ (TrieNode.new key l none : TrieNode w V) with parent := some a }.setKid 0 (some k)) 1
        (.new key newMask (some val))) := by
  rw [insertKid, hk]
  dsimp only
  rw [hkid]
  show (legMask key kid.key newMask (w + 1) cur >>= _) = _
  rw [hleg]
  rfl

theorem newMask_eq {width : ℕ} (h : width ≤ w) :
    (if width < w then BitVec.allOnes w <<< (w - width) else BitVec.allOnes w) =
      prefixMask w width := by
  unfold prefixMask
  split
  · rfl
  · rw [show w - width = 0 by omega, BitVec.shiftLeft_zero]

/-- The new node goes in an empty place. -/
theorem Holds.insertNew (h : t.Holds A N X) (val : V) (hm : m ≤ w)
    (hkey : key &&& prefixMask w m = key) (ha : a ∈ A) (hnone : (N a).kids i = none)
    (hfirst : i = 1 → (N a).kids 0 ≠ none) (habove : TrieNode.Above (N a).label (key, m))
    (hapart : ∀ y, (N a).kids 0 = some y → TrieNode.Apart (N a).label (N y).label (key, m)) :
    ∃ N', (t.addKid a (N a) i (.new key (prefixMask w m) (some val))).2.Holds
    (insert t.next A) N' X ∧
      (∀ b ∈ A, (N b).SameData (N' b)) ∧
      ((N' t.next).key = key ∧ (N' t.next).width = m ∧ (N' t.next).value = some val) ∧
      N' a = (N a).setKid i (some t.next) := by
  have hlabel := TrieNode.label_new key hm (some val)
  rw [hkey] at hlabel
  obtain ⟨N', hN', hdata, hleaf, hNa⟩ := h.addKid ha hnone hfirst
    (TrieNode.normal_new hm (some val))
    (Option.some_ne_none val) (fun _ => rfl) (hlabel ▸ habove) (fun y hy => hlabel ▸ hapart y hy)
  have hlabel' := hleaf.label.trans hlabel
  exact ⟨N', hN', hdata, ⟨congrArg Prod.fst hlabel', congrArg Prod.snd hlabel', hleaf.2.2⟩, hNa⟩

section

variable (h : t.Holds A N ∅) (val : V) (hm : m ≤ w) (hkey : key &&& prefixMask w m = key)
  (ha : a ∈ A)

include h hm hkey ha

/-- The new node goes between a node and its kid. -/
theorem Holds.insertOn (hk : (N a).kids i = some k)
    (habove : TrieNode.Above (N a).label (key, m)) (hbelow : TrieNode.Above (key, m) (N k).label) :
    ∃ A' N', Inserted t A N key m val t.next
      (t.splitKid a (N a) i k (N k) (.new key (prefixMask w m) (some val))) A' N' := by
  have hx := h.next_notMem
  have hlabel := TrieNode.label_new key hm (some val)
  rw [hkey] at hlabel
  obtain ⟨N', hN', hdata, hNx⟩ := h.splitKid ha hk (TrieNode.normal_new hm (some val))
    (fun _ => rfl) (hlabel ▸ habove) (hlabel ▸ hbelow)
  refine ⟨insert t.next A, N', ?_⟩
  constructor
  · refine hN'.drop_exception fun _ _ hnone => ?_
    rw [hNx] at hnone
    cases hnone
  · exact Set.mem_insert ..
  · exact fun hmem => absurd hmem hx
  · rw [hNx]
    exact ⟨hkey, congrArg Prod.snd hlabel, rfl⟩
  · exact fun b hb _ => ⟨Set.mem_insert_of_mem _ hb, hdata b hb⟩
  · rintro b (rfl | hb) hbA hbx
    · exact absurd rfl hbx
    · exact absurd hb hbA
  · intro b hb
    rcases nodes_splitKid_ne hb with hb | rfl | rfl | rfl
    · exact .inl hb
    · exact .inr (Set.mem_insert_of_mem _ ha)
    · exact .inr (Set.mem_insert_of_mem _ (h.kid_mem ha hk))
    · exact .inr (Set.mem_insert ..)

/-- The new node and the kid part below a node of their own. -/
theorem Holds.insertFork {l : ℕ} (hlm : l < m) (hk : (N a).kids i = some k)
    (habove : TrieNode.Above (N a).label (key &&& prefixMask w l, l))
    (hbelow : TrieNode.Above (key &&& prefixMask w l, l) (N k).label)
    (hbit : key.getMsbD l ≠ (N k).key.getMsbD l) :
    ∃ A' N', Inserted t A N key m val (t.next + 1)
      ((t.splitKid a (N a) i k (N k) (.new key (prefixMask w l) none)).addKid t.next
        ({ (TrieNode.new key (prefixMask w l) none : TrieNode w V) with
          parent := some a }.setKid 0 (some k)) 1 (.new key (prefixMask w m) (some val))).2 A' N' := by
  have hlw : l ≤ w := hlm.le.trans hm
  have hx' : t.next + 1 ∉ A := fun hmem => by
    have := h.fresh _ hmem
    omega
  have hlabel := TrieNode.label_new (V := V) key hlw none
  obtain ⟨N₁, hN₁, hdata₁, hNx⟩ := h.splitKid ha hk (TrieNode.normal_new hlw none)
    (fun _ => rfl) (hlabel ▸ habove) (hlabel ▸ hbelow)
  have hlabel₁ : (N₁ t.next).label = (key &&& prefixMask w l, l) := by
    rw [hNx]
    exact hlabel
  have hkid : (N₁ t.next).kids 0 = some k := by
    rw [hNx]
    rfl
  have hmem : t.next ∈ insert t.next A := Set.mem_insert ..
  rw [← hNx]
  obtain ⟨N₂, hN₂, hdata₂, hleaf, hNx₂⟩ : ∃ N', ((t.splitKid a (N a) i k (N k)
      (.new key (prefixMask w l) none)).addKid t.next (N₁ t.next) 1
        (.new key (prefixMask w m) (some val))).2.Holds (insert (t.next + 1) (insert t.next A)) N'
        (insert t.next ∅) ∧
      (∀ b ∈ insert t.next A, (N₁ b).SameData (N' b)) ∧
      ((N' (t.next + 1)).key = key ∧ (N' (t.next + 1)).width = m ∧
        (N' (t.next + 1)).value = some val) ∧
      N' t.next = (N₁ t.next).setKid 1 (some (t.next + 1)) := by
    refine hN₁.insertNew val hm hkey hmem ?_ (fun _ => ?_) ?_ ?_
    · rw [hNx]
      rfl
    · rw [hkid]
      exact Option.some_ne_none k
    · rw [hlabel₁]
      refine ⟨hlm, ?_⟩
      rw [← and_prefixMask_eq_iff hlw, BitVec.and_assoc, BitVec.and_self]
    · intro y hy
      obtain rfl := Option.some.inj (hkid.symm.trans hy)
      rw [hlabel₁, (hdata₁ k (h.kid_mem ha hk)).label]
      exact hbit.symm
  refine ⟨insert (t.next + 1) (insert t.next A), N₂, ?_⟩
  constructor
  · refine hN₂.drop_exception fun _ _ _ => ?_
    rw [hNx₂]
    exact Option.some_ne_none _
  · exact Set.mem_insert ..
  · exact fun hmem => absurd hmem hx'
  · exact hleaf
  · intro b hb _
    have hb' : b ∈ insert t.next A := Set.mem_insert_of_mem _ hb
    exact ⟨Set.mem_insert_of_mem _ hb', (hdata₁ b hb).trans (hdata₂ b hb')⟩
  · rintro b (rfl | rfl | hb) hbA hbx
    · exact absurd rfl hbx
    · rw [hNx₂, hNx]
      rfl
    · exact absurd hb hbA
  · intro b hb
    rcases nodes_addKid_ne hb with hb | rfl | rfl
    · rcases nodes_splitKid_ne hb with hb | rfl | rfl | rfl
      · exact .inl hb
      · exact .inr (.inr (.inr ha))
      · exact .inr (.inr (.inr (h.kid_mem ha hk)))
      · exact .inr (.inr (.inl rfl))
    · exact .inr (.inr (.inl rfl))
    · exact .inr (.inl rfl)

/-- The leg to a kid: the new node goes somewhere on it, or it goes another way from the start. -/
theorem Holds.insertLeg (hk : (N a).kids i = some k) (hagree : Agree (N a).width key (N a).key) (hlt : (N a).width < m)
    (hend : Agree (N k).width key (N k).key → m < (N k).width) (is : List (Fin 2)) :
    (key.getMsbD (N a).width ≠ (N k).key.getMsbD (N a).width ∧
      t.insertKid key (prefixMask w m) val a (N a) (i :: is) (N a).mask =
        t.insertKid key (prefixMask w m) val a (N a) is (N a).mask) ∨
    ∃ handle t' A' N', t.insertKid key (prefixMask w m) val a (N a) (i :: is) (N a).mask =
        .ok (handle, t') ∧ Inserted t A N key m val handle t' A' N' := by
  have hkA := h.kid_mem ha hk
  have hmask : (N a).mask = prefixMask w (N a).width := (h.normal a ha).1
  obtain ⟨l, hleg, hle, hlm, hagl, hbit⟩ : ∃ l, legMask key (N k).key (prefixMask w m) (w + 1)
      (prefixMask w (N a).width) = .ok (prefixMask w l) ∧ (N a).width ≤ l ∧ l ≤ m ∧
      Agree l key (N k).key ∧ (l < m → key.getMsbD l ≠ (N k).key.getMsbD l) :=
    legMask_spec hm hlt.le (hagree.trans (h.kid_above ha hk).2.symm) (by omega)
  have hlw : l ≤ w := hlm.trans hm
  rw [← hmask] at hleg
  rw [insertKid_cons hk (h.node hkA) hleg]
  by_cases hla : l = (N a).width
  · subst hla
    rw [← hmask, if_pos rfl]
    exact .inl ⟨hbit hlt, rfl⟩
  right
  have hal : (N a).width < l := by omega
  have hlmask : prefixMask w l ≠ (N a).mask := by
    rw [hmask]
    exact mt (prefixMask_inj hlw (N a).width_le).mp hla
  -- the mask ends before the kid's: else the walk would have gone on to the kid
  have hlk : l < (N k).width := by
    by_contra hge
    have := hend (hagl.mono (not_lt.mp hge))
    omega
  have hkeyl : Agree l (key &&& prefixMask w l) key := by
    rw [← and_prefixMask_eq_iff hlw, BitVec.and_assoc, BitVec.and_self]
  have habove : TrieNode.Above (N a).label (key &&& prefixMask w l, l) :=
    ⟨hal, (hkeyl.mono hal.le).trans hagree⟩
  have hbelow : TrieNode.Above (key &&& prefixMask w l, l) (N k).label :=
    ⟨hlk, hagl.symm.trans hkeyl.symm⟩
  rw [if_neg hlmask]
  rcases eq_or_ne l m with rfl | hlm'
  · rw [if_pos rfl]
    rw [hkey] at habove hbelow
    obtain ⟨A', N', hins⟩ := h.insertOn val hm hkey ha hk habove hbelow
    exact ⟨_, _, A', N', rfl, hins⟩
  · have hlm'' : l < m := by omega
    rw [if_neg (mt (prefixMask_inj hlw hm).mp hlm')]
    obtain ⟨A', N', hins⟩ := h.insertFork val hm hkey ha hlm'' hk habove hbelow (hbit hlm'')
    exact ⟨_, _, A', N', rfl, hins⟩

/-- The new node goes into an empty place of `a`. -/
theorem Holds.insertEmpty (hnone : (N a).kids i = none)
    (hfirst : i = 1 → (N a).kids 0 ≠ none) (hagree : Agree (N a).width key (N a).key)
    (hlt : (N a).width < m)
    (hbit : ∀ y, (N a).kids 0 = some y → key.getMsbD (N a).width ≠ (N y).key.getMsbD (N a).width) :
    ∃ A' N', Inserted t A N key m val t.next
      (t.addKid a (N a) i (.new key (prefixMask w m) (some val))).2 A' N' := by
  have hx := h.next_notMem
  obtain ⟨N', hN', hdata, hleaf, -⟩ := h.insertNew val hm hkey ha hnone hfirst ⟨hlt, hagree⟩
    fun y hy => (hbit y hy).symm
  refine ⟨insert t.next A, N', hN', Set.mem_insert .., fun hmem => absurd hmem hx, hleaf, ?_, ?_, ?_⟩
  · exact fun b hb _ => ⟨Set.mem_insert_of_mem _ hb, hdata b hb⟩
  · rintro b (rfl | hb) hbA hbx
    · exact absurd rfl hbx
    · exact absurd hb hbA
  · intro b hb
    rcases nodes_addKid_ne hb with hb | rfl | rfl
    · exact .inl hb
    · exact .inr (Set.mem_insert_of_mem _ ha)
    · exact .inr (Set.mem_insert ..)

/-- The loop over the kids finds a place: the key goes the way of one of two kids. -/
theorem Holds.insertKid (hagree : Agree (N a).width key (N a).key) (hlt : (N a).width < m)
    (hend : ∀ i k, (N a).kids i = some k → Agree (N k).width key (N k).key → m < (N k).width) :
    ∃ handle t' A' N', t.insertKid key (prefixMask w m) val a (N a) [0, 1] (N a).mask =
        .ok (handle, t') ∧ Inserted t A N key m val handle t' A' N' := by
  cases hzero : (N a).kids 0 with
  | none =>
    obtain ⟨A', N', hins⟩ := h.insertEmpty val hm hkey ha hzero nofun hagree hlt
      fun y hy => by cases hzero.symm.trans hy
    refine ⟨_, _, A', N', ?_, hins⟩
    rw [Trie.insertKid, hzero]
    rfl
  | some k₀ =>
    rcases h.insertLeg val hm hkey ha hzero hagree hlt (hend 0 k₀ hzero) [1] with
      ⟨hbit₀, heq₀⟩ | hdone
    · rw [heq₀]
      cases hone : (N a).kids 1 with
      | none =>
        obtain ⟨A', N', hins⟩ := h.insertEmpty val (i := 1) hm hkey ha hone
          (fun _ => by rw [hzero]; exact Option.some_ne_none k₀) hagree hlt fun y hy => by
            obtain rfl := Option.some.inj (hzero.symm.trans hy)
            exact hbit₀
        refine ⟨_, _, A', N', ?_, hins⟩
        rw [Trie.insertKid, hone]
        rfl
      | some k₁ =>
        rcases h.insertLeg val hm hkey ha hone hagree hlt (hend 1 k₁ hone) [] with
          ⟨hbit₁, -⟩ | hdone
        · -- the two kids differ in the bit, so the key agrees with one of them
          have hdiff : (N k₀).key.getMsbD (N a).width ≠ (N k₁).key.getMsbD (N a).width :=
            h.tree.differ a ha k₀ k₁ hzero hone
          revert hbit₀ hbit₁ hdiff
          cases key.getMsbD (N a).width <;> cases (N k₀).key.getMsbD (N a).width <;>
            cases (N k₁).key.getMsbD (N a).width <;> simp
        · exact hdone
    · exact hdone

end

protected theorem Holds.insert (h : t.Holds A N ∅) (hpos : 0 < m) (hm : m ≤ w) (key : BitVec w)
    (val : V)
    (hnew : ∀ b ∈ A, (N b).value ≠ none →
      ¬ ((N b).width = m ∧ (N b).key = key &&& prefixMask w m)) :
    ∃ handle t' A' N', t.insert key m val = .ok (handle, t') ∧
      Inserted t A N (key &&& prefixMask w m) m val handle t' A' N' := by
  have hkey : key &&& prefixMask w m &&& prefixMask w m = key &&& prefixMask w m := by
    rw [BitVec.and_assoc, BitVec.and_self]
  have hzero : (N 0).width = 0 := h.head.1
  obtain ⟨a, ha, hwalk, hagree, hle, hend⟩ := h.walkFrom (key &&& prefixMask w m)
    (w + 1) hm h.tree.root
    (by rw [hzero]; exact nofun) (by omega) (by omega)
  unfold Trie.insert
  rw [newMask_eq hm]
  show ∃ handle t' A' N', (t.walkFrom _ _ _ 0 >>= _) = Except.ok (handle, t') ∧ _
  rw [hwalk]
  show ∃ handle t' A' N', (t.node a >>= _) = Except.ok (handle, t') ∧ _
  rw [h.node ha]
  show ∃ handle t' A' N', (if (N a).mask = prefixMask w m then _ else _) = Except.ok
    (handle, t') ∧ _
  have hmask : (N a).mask = prefixMask w (N a).width := (h.normal a ha).1
  by_cases heq : (N a).width = m
  · rw [heq] at hagree hmask
    have hkeya : (N a).key = key &&& prefixMask w m := by
      have hsame := (and_prefixMask_eq_iff hm).mpr hagree
      rw [hkey, ← hmask, (h.normal a ha).2] at hsame
      rw [← hsame, hmask]
    have hvalue : (N a).value = none := by
      by_contra hne
      exact hnew a ha hne ⟨heq, hkeya⟩
    have ha0 : a ≠ 0 := by
      rintro rfl
      omega
    rw [if_pos hmask, hvalue]
    refine ⟨a, _, A, _, rfl, h.setValue ha ha0 (some val) nofun, ha, fun _ => hvalue, ?_, ?_, ?_, ?_⟩
    · rw [update_self]
      exact ⟨hkeya, heq, rfl⟩
    · intro b hb hba
      rw [update_of_ne hba]
      exact ⟨hb, rfl, rfl, rfl⟩
    · exact fun b hb hbA => absurd hb hbA
    · exact fun b hb => (nodes_set_ne hb).imp id fun hba : b = a => hba ▸ ha
  · rw [if_neg (by rw [hmask]; exact mt (prefixMask_inj (N a).width_le hm).mp heq)]
    exact h.insertKid val hm hkey ha hagree (by omega) hend

end Trie
