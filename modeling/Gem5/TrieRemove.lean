/-
# Removing from the trie

`remove` keeps the invariant of `Gem5.Trie`: a node with two kids loses its value
only, one with a single kid is replaced by it, and a leaf goes, with its parent if
that is left with one kid and no value.

* `Holds.splice`, `Holds.dropLeaf` — the two changes of the tree.
* `Trie.Removed`        — what `remove` does to the nodes.
* `Holds.remove`        — it does so.
-/
import Mathlib
import Gem5.TrieInsert

open Function

variable {w : ℕ} {V : Type}

namespace TrieNode

variable {n : TrieNode w V} {i : Fin 2}

/-- With a kid put in the place of another, nothing is to be packed. -/
theorem packKids_setKid_some (hfirst : n.kids 0 = none → n.kids 1 = none) (hi : n.kids i ≠ none)
    (c : ℕ) : (n.setKid i (some c)).packKids = n.setKid i (some c) := by
  unfold packKids
  rw [if_neg]
  rintro ⟨-, hzero⟩
  rw [Option.isNone_iff_eq_none] at hzero
  have hi' : i = 0 ∨ i = 1 := by omega
  rcases hi' with rfl | rfl
  · cases hzero
  · exact hi (hfirst hzero)

/-- With a kid taken out, the other one is the first. -/
theorem packKids_setKid_none :
    (n.setKid i none).packKids.kids 0 = n.kids (i + 1) ∧
      (n.setKid i none).packKids.kids 1 = none := by
  have hi' : i = 0 ∨ i = 1 := by omega
  unfold packKids
  rcases hi' with rfl | rfl
  · have hzero : (n.setKid 0 none).kids 0 = none := setKid_self ..
    have hone : (n.setKid 0 none).kids 1 = n.kids 1 := setKid_of_ne n (by decide) _
    cases hkid : n.kids 1 with
    | none =>
      rw [hkid] at hone
      rw [if_neg (by rw [hone]; simp)]
      exact ⟨hzero.trans hkid.symm, hone⟩
    | some k =>
      rw [if_pos (by rw [hzero, hone, hkid]; simp)]
      exact ⟨hone, rfl⟩
  · have hzero : (n.setKid 1 none).kids 0 = n.kids 0 := setKid_of_ne n (by decide) _
    have hone : (n.setKid 1 none).kids 1 = none := setKid_self ..
    exact ⟨hzero, hone⟩

theorem packKids_data : n.SameData n.packKids ∧ n.packKids.parent = n.parent := by
  unfold packKids
  split
  · exact ⟨⟨rfl, rfl, rfl⟩, rfl⟩
  · exact ⟨⟨rfl, rfl, rfl⟩, rfl⟩

end TrieNode

namespace Trie

variable {t : Trie w V} {A X : Set ℕ} {N : ℕ → TrieNode w V} {a k : ℕ} {i : Fin 2} {key : BitVec w}

/-- The place of a node below the root. -/
theorem Holds.place (h : t.Holds A N X) {y : ℕ} (hy : y ∈ A) (hy0 : y ≠ 0) :
    ∃ a ∈ A, ∃ i, (N a).kids i = some y ∧ (N y).parent = some a ∧ a ≠ y := by
  obtain ⟨a, ha, i, hi⟩ := h.tree.up y hy hy0
  exact ⟨a, ha, i, hi, (h.tree.down a ha i y hi).2.1,
    (h.tree.kid_ne TrieNode.labelOrder ha hi).symm⟩

theorem replaceKid_eq {y : ℕ} {p : TrieNode w V} (hp : t.node a = .ok p) (hy : p.kids i = some y)
    (hunique : ∀ j, p.kids j = some y → j = i) (kid : Option ℕ) :
    t.replaceKid a y kid = .ok (t.set a (p.setKid i kid).packKids) := by
  have hi : i = 0 ∨ i = 1 := by omega
  unfold replaceKid
  rw [hp]
  show (if p.kids 0 = some y then _ else _) = _
  rcases hi with rfl | rfl
  · rw [if_pos hy]
    rfl
  · rw [if_neg fun heq => absurd (hunique 0 heq) (by decide), if_pos hy]
    rfl

theorem Holds.delete {y : ℕ} (h : t.Holds A N X) (hy : y ∉ A) : (t.delete y).Holds A N X :=
  { h with
    nodes := by
      intro b hb
      have hby : b ≠ y := fun heq => hy (heq ▸ hb)
      exact (update_of_ne hby ..).trans (h.nodes b hb) }

theorem nodes_delete_ne {b y : ℕ} (h : (t.delete y).nodes b ≠ none) : t.nodes b ≠ none ∧ b ≠ y := by
  have hby : b ≠ y := by
    rintro rfl
    exact h (update_self ..)
  refine ⟨fun hnone => h ?_, hby⟩
  exact (update_of_ne hby ..).trans hnone

/-- The heap after a node with one kid is taken out of the tree, before it is deleted. -/
theorem Holds.splice {y c : ℕ} (h : t.Holds A N X) (ha : a ∈ A) (hy : (N a).kids i = some y)
    (hc : (N y).kids 0 = some c) (hone : (N y).kids 1 = none) :
    ∃ N', ((t.set c { N c with parent := some a }).set a ((N a).setKid i (some c))).Holds (A \ {y}) N' X ∧
      (∀ b ∈ A, (N b).SameData (N' b)) ∧ N' a = (N a).setKid i (some c) := by
  have hyA := h.kid_mem ha hy
  have hca : c ≠ a := by
    rintro rfl
    have := (h.kid_above ha hy).1
    have := (h.kid_above hyA hc).1
    omega
  set N' := update (update N c { N c with parent := some a }) a
    ((N a).setKid i (some c)) with hN'
  have hNa : N' a = (N a).setKid i (some c) := update_self ..
  have hNc : N' c = { N c with parent := some a } := by
    rw [hN', update_of_ne hca, update_self]
  have hNb : ∀ b, b ≠ a → b ≠ c → N' b = N b := by
    intro b hba hbc
    rw [hN', update_of_ne hba, update_of_ne hbc]
  have hdata : ∀ b, (N b).SameData (N' b) ∧ (b ≠ a → (N' b).kids = (N b).kids) := by
    intro b
    by_cases hba : b = a
    · rw [hba, hNa]
      exact ⟨⟨rfl, rfl, rfl⟩, fun hne => absurd rfl hne⟩
    · by_cases hbc : b = c
      · rw [hbc, hNc]
        exact ⟨⟨rfl, rfl, rfl⟩, fun _ => rfl⟩
      · rw [hNb b hba hbc]
        exact ⟨⟨rfl, rfl, rfl⟩, fun _ => rfl⟩
  refine ⟨N', ?_, fun b _ => (hdata b).1, hNa⟩
  constructor
  · rintro b ⟨hb, -⟩
    have hupdate := update_some (update_some h.nodes c { N c with parent := some a }) a
      ((N a).setKid i (some c))
    exact hupdate b (Set.mem_insert_of_mem _ (Set.mem_insert_of_mem _ hb))
  · exact fun b hb => h.fresh b hb.1
  · exact fun b hb => (hdata b).1.normal (h.normal b hb.1)
  · unfold TrieNode.width
    rw [(hdata 0).1.2.1, (hdata 0).1.2.2]
    exact h.head
  · refine h.tree.splice (M := links N') TrieNode.labelOrder ha hy hc hone
      (fun b _ => (hdata b).1.label) ?_ (congrArg TrieNode.parent hNc) (fun b _ => (hdata b).2)
      (congrArg TrieNode.kids hNa)
    intro b hb hbc
    show (N' b).parent = (N b).parent
    by_cases hba : b = a
    · rw [hba, hNa]
      rfl
    · rw [hNb b hba hbc]
  · rintro b ⟨hb, -⟩ hbX hb0 hbv
    rw [(hdata b).1.2.2] at hbv
    have hone := h.full b hb hbX hb0 hbv
    rcases eq_or_ne b a with rfl | hba
    · rw [hNa]
      by_cases hi : 1 = i
      · rw [← hi]
        exact Option.some_ne_none _
      · rwa [TrieNode.setKid_of_ne _ hi]
    · rwa [(hdata b).2 hba]

/-- The heap after a leaf is taken out of the tree, before it is deleted. -/
theorem Holds.dropLeaf {y : ℕ} (h : t.Holds A N X) (ha : a ∈ A) (hy : (N a).kids i = some y)
    (hzero : (N y).kids 0 = none) :
    (t.set a ((N a).setKid i none).packKids).Holds (A \ {y})
      (update N a ((N a).setKid i none).packKids) (insert a X) := by
  set p := ((N a).setKid i none).packKids with hp
  have hpdata : (N a).SameData p ∧ p.parent = (N a).parent := TrieNode.packKids_data
  obtain ⟨hpzero, hpone⟩ : p.kids 0 = (N a).kids (i + 1) ∧ p.kids 1 = none :=
    TrieNode.packKids_setKid_none
  set N' := update N a p with hN'
  have hNa : N' a = p := update_self ..
  have hNb : ∀ b, b ≠ a → N' b = N b := fun b hba => update_of_ne hba ..
  have hdata : ∀ b, (N b).SameData (N' b) ∧ (N' b).parent = (N b).parent := by
    intro b
    by_cases hba : b = a
    · rw [hba, hNa]
      exact hpdata
    · rw [hNb b hba]
      exact ⟨⟨rfl, rfl, rfl⟩, rfl⟩
  constructor
  · rintro b ⟨hb, -⟩
    exact update_some h.nodes a p b (Set.mem_insert_of_mem _ hb)
  · exact fun b hb => h.fresh b hb.1
  · exact fun b hb => (hdata b).1.normal (h.normal b hb.1)
  · unfold TrieNode.width
    rw [(hdata 0).1.2.1, (hdata 0).1.2.2]
    exact h.head
  · refine h.tree.dropLeaf (M := links N') TrieNode.labelOrder ha hy hzero
      (fun b _ => (hdata b).1.label) (fun b _ => (hdata b).2)
      (fun b _ hba => congrArg TrieNode.kids (hNb b hba)) ?_ ?_
    · show (N' a).kids 0 = (N a).kids (i + 1)
      rw [hNa, hpzero]
    · show (N' a).kids 1 = none
      rw [hNa, hpone]
  · rintro b ⟨hb, -⟩ hbX hb0 hbv
    have hba : b ≠ a := fun heq => hbX (.inl heq)
    rw [hNb b hba] at hbv ⊢
    exact h.full b hb (fun hmem => hbX (.inr hmem)) hb0 hbv

/-- What `remove` has done to the node at the handle: the other nodes with a value stay. -/
structure Removed (t : Trie w V) (A : Set ℕ) (N : ℕ → TrieNode w V) (handle : ℕ) (t' : Trie w V)
    (A' : Set ℕ) (N' : ℕ → TrieNode w V) : Prop where
  holds : t'.Holds A' N' ∅
  keeps : ∀ b ∈ A, b ≠ handle → (N b).value ≠ none → b ∈ A'
  data : ∀ b ∈ A', b ∈ A ∧ (b ≠ handle → (N b).SameData (N' b)) ∧
    (b = handle → (N' b).value = none)
  domain : ∀ b, t'.nodes b ≠ none → t.nodes b ≠ none ∧ (b ∈ A → b ∈ A')

theorem removeNode_eq {y fuel : ℕ} {t₁ t₂ : Trie w V} {n p : TrieNode w V} (hn : t.node y = .ok n)
    (hone : n.kids 1 = none) (hparent : n.parent = some a)
    (ht₁ : t.setParent (n.kids 0) a = .ok t₁) (ht₂ : t₁.replaceKid a y (n.kids 0) = .ok t₂)
    (hp : t₂.node a = .ok p) :
    t.removeNode (fuel + 1) y =
      if (p.kids 1).isNone ∧ p.value.isNone ∧ p.parent.isSome then
        (t₂.removeNode fuel a).map fun rest => (n.value, rest.2.delete y)
      else .ok (n.value, t₂.delete y) := by
  rw [removeNode, hn]
  show (if (n.kids 1).isSome = true then _ else _) = _
  rw [hone, hparent]
  show (t.setParent (n.kids 0) a >>= _) = _
  rw [ht₁]
  show (t₁.replaceKid a y (n.kids 0) >>= _) = _
  rw [ht₂]
  show (t₂.node a >>= _) = _
  rw [hp]
  rfl

theorem node_set (x : ℕ) (n : TrieNode w V) : (t.set x n).node x = .ok n := by
  have hnode : (t.set x n).nodes x = some n := update_self ..
  unfold Trie.node
  rw [hnode]

theorem node_set_of_ne {b x : ℕ} (h : b ≠ x) (n : TrieNode w V) : (t.set x n).node b = t.node b := by
  have hnode : (t.set x n).nodes b = t.nodes b := update_of_ne h ..
  unfold Trie.node
  rw [hnode]

/-- `remove` of a node with one kid. -/
theorem Holds.removeSplice {y c : ℕ} (h : t.Holds A N {y}) (hyA : y ∈ A) (hy0 : y ≠ 0)
    (hc : (N y).kids 0 = some c) (hone : (N y).kids 1 = none) (fuel : ℕ) :
    ∃ t' N', t.removeNode (fuel + 1) y = .ok ((N y).value, t') ∧
      Removed t A N y t' (A \ {y}) N' := by
  obtain ⟨a, ha, i, hy, hparent, hay⟩ := h.place hyA hy0
  have hcA := h.kid_mem hyA hc
  obtain ⟨N', hN', hdata, hNa⟩ := h.splice ha hy hc hone
  have hfirst : (N a).kids 0 = none → (N a).kids 1 = none := h.tree.first a ha
  have hca : a ≠ c := by
    rintro rfl
    have := (h.kid_above ha hy).1
    have := (h.kid_above hyA hc).1
    omega
  -- the parent keeps its number of kids, so it is not removed as well
  have hstop : ¬ ((((N a).setKid i (some c)).kids 1).isNone = true ∧
      ((N a).setKid i (some c)).value.isNone = true ∧
      ((N a).setKid i (some c)).parent.isSome = true) := by
    rintro ⟨hkid, hvalue, hpar⟩
    rw [Option.isNone_iff_eq_none] at hkid hvalue
    have ha0 : a ≠ 0 := by
      rintro rfl
      have hnone : (N 0).parent = none := h.tree.head
      change (N 0).parent.isSome = true at hpar
      rw [hnone] at hpar
      cases hpar
    have hkid' := h.full a ha hay ha0 hvalue
    by_cases hi : 1 = i
    · rw [← hi] at hkid
      cases hkid
    · rw [TrieNode.setKid_of_ne _ hi] at hkid
      exact hkid' hkid
  refine ⟨((t.set c { N c with parent := some a }).set a ((N a).setKid i (some c))).delete y, N', ?_, ?_⟩
  · have ht₁ : t.setParent ((N y).kids 0) a = .ok (t.set c { N c with parent := some a }) := by
      rw [hc]
      show (t.node c >>= _) = _
      rw [h.node hcA]
      rfl
    have hnode : (t.set c { N c with parent := some a }).node a = .ok (N a) :=
      (node_set_of_ne hca _).trans (h.node ha)
    have ht₂ := replaceKid_eq hnode hy
      (fun j hj => h.tree.kid_unique TrieNode.labelOrder ha hj hy) ((N y).kids 0)
    rw [hc, TrieNode.packKids_setKid_some hfirst (by rw [hy]; exact Option.some_ne_none y), ← hc] at ht₂
    rw [removeNode_eq (h.node hyA) hone hparent ht₁ ht₂ (node_set ..), hc, if_neg hstop]
  · refine ⟨?_, fun b hb hby _ => ⟨hb, hby⟩, fun b hb => ⟨hb.1, fun _ => hdata b hb.1, ?_⟩, ?_⟩
    · have hdel := hN'.delete (y := y) fun hmem => hmem.2 rfl
      exact { hdel with full := fun b hb _ => hdel.full b hb hb.2 }
    · exact fun heq => absurd heq hb.2
    · intro b hb
      obtain ⟨hb, hby⟩ := nodes_delete_ne hb
      refine ⟨?_, fun hbA => ⟨hbA, hby⟩⟩
      rcases nodes_set_ne hb with hb | rfl
      · rcases nodes_set_ne hb with hb | rfl
        · exact hb
        · rw [h.nodes b hcA]
          exact Option.some_ne_none _
      · rw [h.nodes b ha]
        exact Option.some_ne_none _

/-- `remove` of a leaf: a parent that is left with one kid and has no value goes as well. -/
theorem Holds.removeLeaf {y : ℕ} (h : t.Holds A N ∅) (hyA : y ∈ A) (hy0 : y ≠ 0)
    (hzero : (N y).kids 0 = none) (fuel : ℕ) :
    ∃ t' A' N', t.removeNode (fuel + 2) y = .ok ((N y).value, t') ∧ Removed t A N y t' A' N' := by
  obtain ⟨a, ha, i, hy, hparent, hay⟩ := h.place hyA hy0
  have hone := h.tree.first y hyA hzero
  have hN₁ := h.dropLeaf ha hy hzero
  set p := ((N a).setKid i none).packKids with hp
  have hpdata : (N a).SameData p ∧ p.parent = (N a).parent := TrieNode.packKids_data
  obtain ⟨hpzero, hpone⟩ : p.kids 0 = (N a).kids (i + 1) ∧ p.kids 1 = none :=
    TrieNode.packKids_setKid_none
  have ht₂ := replaceKid_eq (h.node ha) hy
    (fun j hj => h.tree.kid_unique TrieNode.labelOrder ha hj hy) ((N y).kids 0)
  rw [hzero, ← hp, ← hzero] at ht₂
  have ht₁ : t.setParent ((N y).kids 0) a = .ok t := by
    rw [hzero]
    rfl
  rw [removeNode_eq (h.node hyA) hone hparent ht₁ ht₂ (node_set ..), hpone]
  set N₁ := update N a p with hN₁def
  have hNa : N₁ a = p := update_self ..
  have hdata : ∀ b, (N b).SameData (N₁ b) := by
    intro b
    by_cases hba : b = a
    · rw [hba, hNa]
      exact hpdata.1
    · rw [hN₁def, update_of_ne hba]
      exact ⟨rfl, rfl, rfl⟩
  have hdomain : ∀ b, (t.set a p).nodes b ≠ none → t.nodes b ≠ none := by
    intro b hb
    rcases nodes_set_ne hb with hb | rfl
    · exact hb
    · rw [h.nodes b ha]
      exact Option.some_ne_none _
  split
  · rename_i hcond
    obtain ⟨-, hvalue, hpar⟩ := hcond
    rw [Option.isNone_iff_eq_none] at hvalue
    rw [hpdata.1.2.2] at hvalue
    have ha0 : a ≠ 0 := by
      rintro rfl
      rw [hpdata.2, show (N 0).parent = none from h.tree.head] at hpar
      cases hpar
    -- the parent had two kids, so one is left
    obtain ⟨c, hc⟩ : ∃ c, p.kids 0 = some c := by
      have hkid := h.full a ha (Set.notMem_empty a) ha0 hvalue
      rw [hpzero]
      have hi : i = 0 ∨ i = 1 := by omega
      rcases hi with rfl | rfl
      · exact Option.ne_none_iff_exists'.mp hkid
      · exact Option.ne_none_iff_exists'.mp fun hnone => hkid (h.tree.first a ha hnone)
    have haA : a ∈ A \ {y} := ⟨ha, hay⟩
    rw [show insert a (∅ : Set ℕ) = {a} from insert_empty_eq a] at hN₁
    obtain ⟨t', N', heq, hrem⟩ := hN₁.removeSplice haA ha0 (hNa ▸ hc) (hNa ▸ hpone) fuel
    rw [heq]
    refine ⟨_, (A \ {y}) \ {a}, N', rfl, ?_⟩
    constructor
    · exact hrem.holds.delete fun hmem => hmem.1.2 rfl
    · intro b hb hby hbv
      refine ⟨⟨hb, hby⟩, ?_⟩
      rintro rfl
      exact hbv hvalue
    · intro b hb
      obtain ⟨hb', hsame, -⟩ := hrem.data b hb
      exact ⟨hb'.1, fun _ => (hdata b).trans (hsame hb.2), fun heq => absurd heq hb'.2⟩
    · intro b hb
      obtain ⟨hb, hby⟩ := nodes_delete_ne hb
      obtain ⟨hb, himp⟩ := hrem.domain b hb
      exact ⟨hdomain b hb, fun hbA => himp ⟨hbA, hby⟩⟩
  · rename_i hcond
    refine ⟨_, A \ {y}, N₁, rfl, ?_⟩
    constructor
    · refine (hN₁.drop_exception fun haA ha0 hvalue => ?_).delete fun hmem => hmem.2 rfl
      obtain ⟨b, -, j, -, hpar, -⟩ := h.place haA.1 ha0
      rw [hNa] at hvalue
      refine absurd ⟨rfl, ?_, ?_⟩ hcond
      · rw [hvalue]
        rfl
      · rw [hpdata.2, hpar]
        rfl
    · exact fun b hb hby _ => ⟨hb, hby⟩
    · exact fun b hb => ⟨hb.1, fun _ => hdata b, fun heq => absurd heq hb.2⟩
    · intro b hb
      obtain ⟨hb, hby⟩ := nodes_delete_ne hb
      exact ⟨hdomain b hb, fun hbA => ⟨hbA, hby⟩⟩

theorem Holds.remove {y : ℕ} {v : V} (h : t.Holds A N ∅) (hyA : y ∈ A) (hv : (N y).value = some v) :
    ∃ t' A' N', t.remove y = .ok (some v, t') ∧ Removed t A N y t' A' N' := by
  have hy0 : y ≠ 0 := by
    rintro rfl
    rw [h.head.2] at hv
    cases hv
  have hwidth : 0 < (N y).width := by
    obtain ⟨a, ha, i, hy, -⟩ := h.place hyA hy0
    have := (h.kid_above ha hy).1
    omega
  obtain ⟨fuel, rfl⟩ := Nat.exists_eq_succ_of_ne_zero (hwidth.trans_le (N y).width_le).ne'
  unfold Trie.remove
  cases hone : (N y).kids 1 with
  | some k =>
    have hset := h.setValue hyA hy0 none fun _ => by
      rw [hone]
      exact Option.some_ne_none k
    refine ⟨_, A, _, ?_, hset, fun b hb _ _ => hb, fun b hb => ⟨hb, fun hby => ?_, ?_⟩, ?_⟩
    · rw [removeNode, h.node hyA]
      show (if ((N y).kids 1).isSome = true then _ else _) = _
      rw [hone, hv]
      rfl
    · rw [update_of_ne hby]
      exact ⟨rfl, rfl, rfl⟩
    · rintro rfl
      rw [update_self]
    · refine fun b hb => ⟨?_, id⟩
      rcases nodes_set_ne hb with hb | rfl
      · exact hb
      · rw [h.nodes b hyA]
        exact Option.some_ne_none _
  | none =>
    cases hzero : (N y).kids 0 with
    | none =>
      rw [← hv]
      exact h.removeLeaf hyA hy0 hzero fuel
    | some c =>
      have h' : t.Holds A N {y} := { h with full := fun b hb _ => h.full b hb (Set.notMem_empty b) }
      obtain ⟨t', N', heq, hrem⟩ := h'.removeSplice hyA hy0 hzero hone (fuel + 1)
      rw [← hv]
      exact ⟨t', _, N', heq, hrem⟩

end Trie
