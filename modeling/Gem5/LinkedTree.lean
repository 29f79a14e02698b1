/-
# Binary trees of linked nodes

Nodes at the addresses `A`, each with two places for kids and a pointer to its
parent.  `above` is a relation between the labels of a node and its kids, and
`apart` one between the labels of a node and of its two kids.

* `LabelOrder`            — what is assumed of the labels.
* `LinkedTree`            — the pointers form a tree, an only kid is the first.
* `LinkedTree.addLeaf`, `LinkedTree.splitEdge`, `LinkedTree.dropLeaf`,
  `LinkedTree.splice`     — the changes that keep that, each given by what the new
                            pointers are.
* `LinkedTree.reaches`    — every node is reached from the root.
-/
import Mathlib

open Function

variable {ι α : Type*}

/-- Labels get larger on the way down, and which way a label goes at a node is the same for all the
labels above it. -/
structure LabelOrder (rank : α → ℕ) (above : α → α → Prop) (apart : α → α → α → Prop) : Prop where
  rank_lt : ∀ {l m}, above l m → rank l < rank m
  trans : ∀ {l m n}, above l m → above m n → above l n
  irrefl : ∀ {l m}, ¬ apart l m m
  symm : ∀ {l m n}, apart l m n → apart l n m
  congr : ∀ {l m n z}, above l m → above m n → (apart l m z ↔ apart l n z)

/-- The pointers and labels, read at an address. -/
structure Links (ι α : Type*) where
  label : ι → α
  parent : ι → Option ι
  kids : ι → Fin 2 → Option ι

structure LinkedTree (above : α → α → Prop) (apart : α → α → α → Prop) (r : ι) (A : Set ι)
    (L : Links ι α) : Prop where
  root : r ∈ A
  head : L.parent r = none
  down : ∀ a ∈ A, ∀ i k, L.kids a i = some k →
    k ∈ A ∧ L.parent k = some a ∧ above (L.label a) (L.label k)
  up : ∀ k ∈ A, k ≠ r → ∃ a ∈ A, ∃ i, L.kids a i = some k
  first : ∀ a ∈ A, L.kids a 0 = none → L.kids a 1 = none
  differ : ∀ a ∈ A, ∀ x y, L.kids a 0 = some x → L.kids a 1 = some y →
    apart (L.label a) (L.label x) (L.label y)

namespace LinkedTree

variable {rank : α → ℕ} {above : α → α → Prop} {apart : α → α → α → Prop} {r : ι} {A : Set ι}
  {L M : Links ι α} {a b k x y c : ι} {i j : Fin 2}

/-- The kids of a tree in which `x` takes the place `i` of `a`. -/
theorem kids_iff (hkids : ∀ b ∈ A, b ≠ a → M.kids b = L.kids b)
    (hakids : M.kids a = update (L.kids a) i (some x)) (hb : b ∈ A) : M.kids b j = some k ↔
      L.kids b j = some k ∧ ¬ (b = a ∧ j = i) ∨ b = a ∧ j = i ∧ k = x := by
  rcases eq_or_ne b a with rfl | hba
  · rcases eq_or_ne j i with rfl | hji
    · simp [hakids, eq_comm]
    · simp [hakids, hji]
  · simp [hkids b hb hba, hba]

theorem eq_zero_of_kid (hone : L.kids a 1 = none) (hk : L.kids a j = some k) : j = 0 := by
  by_contra hj
  obtain rfl : j = 1 := by omega
  cases hone.symm.trans hk

section

variable (h : LinkedTree above apart r A L)

include h

theorem ne_root (ha : a ∈ A) (hk : L.kids a i = some k) :
    k ≠ r := by
  rintro rfl
  have hparent := (h.down a ha i k hk).2.1
  rw [h.head] at hparent
  cases hparent

section

variable (hlabel : LabelOrder rank above apart)

include hlabel

theorem kid_unique (ha : a ∈ A) (hi : L.kids a i = some k) (hj : L.kids a j = some k) : i = j := by
  by_contra hne
  have hboth : L.kids a 0 = some k ∧ L.kids a 1 = some k := by
    fin_cases i <;> fin_cases j <;> simp_all
  exact hlabel.irrefl (h.differ a ha k k hboth.1 hboth.2)

/-- A node is the kid of one node, in one place. -/
theorem place_unique (ha : a ∈ A) (hb : b ∈ A) (hi : L.kids a i = some k) (hj : L.kids b j = some k) :
    a = b ∧ i = j := by
  have hab : some a = some b := (h.down a ha i k hi).2.1.symm.trans (h.down b hb j k hj).2.1
  cases hab
  exact ⟨rfl, h.kid_unique hlabel ha hi hj⟩

theorem kid_ne (ha : a ∈ A) (hk : L.kids a i = some k) : k ≠ a := by
  rintro rfl
  exact lt_irrefl _ (hlabel.rank_lt (h.down k ha i k hk).2.2)

/-- Two kids that differ at their parent, in either order. -/
theorem apart_of_kids (ha : a ∈ A) (hi : L.kids a i = some x) (hj : L.kids a j = some y) (hne : i ≠ j) :
    apart (L.label a) (L.label x) (L.label y) := by
  fin_cases i <;> fin_cases j
  · exact absurd rfl hne
  · exact h.differ a ha x y hi hj
  · exact hlabel.symm (h.differ a ha y x hj hi)
  · exact absurd rfl hne

end

/-! ### Changing the tree -/

/-- Add a leaf in an empty place: the first, or the second of a node whose kid goes the other
way. -/
theorem addLeaf (hx : x ∉ A) (ha : a ∈ A)
    (hnone : L.kids a i = none) (hfirst : i = 1 → L.kids a 0 ≠ none)
    (habove : above (L.label a) (M.label x))
    (hapart : ∀ y, L.kids a 0 = some y → apart (L.label a) (L.label y) (M.label x))
    (hlabel : ∀ b ∈ A, M.label b = L.label b) (hparent : ∀ b ∈ A, M.parent b = L.parent b)
    (hkids : ∀ b ∈ A, b ≠ a → M.kids b = L.kids b) (hxparent : M.parent x = some a)
    (hxkids : ∀ j, M.kids x j = none) (hakids : M.kids a = update (L.kids a) i (some x)) :
    LinkedTree above apart r (insert x A) M := by
  have hold : ∀ b ∈ A, ∀ j k, L.kids b j = some k → M.kids b j = some k := by
    intro b hb j k hk
    refine (kids_iff hkids hakids hb).mpr (.inl ⟨hk, ?_⟩)
    rintro ⟨rfl, rfl⟩
    cases hnone.symm.trans hk
  have hcases : ∀ b ∈ insert x A, ∀ j k, M.kids b j = some k →
      b ∈ A ∧ L.kids b j = some k ∨ b = a ∧ j = i ∧ k = x := by
    rintro b (rfl | hb) j k hk
    · cases (hxkids j).symm.trans hk
    · exact ((kids_iff hkids hakids hb).mp hk).imp_left fun hk => ⟨hb, hk.1⟩
  constructor
  · exact Set.mem_insert_of_mem _ h.root
  · rw [hparent r h.root, h.head]
  · intro b hb j k hk
    rcases hcases b hb j k hk with ⟨hb, hk⟩ | ⟨rfl, rfl, rfl⟩
    · obtain ⟨hkA, hkp, hka⟩ := h.down b hb j k hk
      rw [hlabel b hb, hlabel k hkA, hparent k hkA]
      exact ⟨Set.mem_insert_of_mem _ hkA, hkp, hka⟩
    · rw [hlabel b ha]
      exact ⟨Set.mem_insert .., hxparent, habove⟩
  · rintro k (rfl | hk) hne
    · exact ⟨a, Set.mem_insert_of_mem _ ha, i, hakids ▸ update_self ..⟩
    · obtain ⟨b, hb, j, hj⟩ := h.up k hk hne
      exact ⟨b, Set.mem_insert_of_mem _ hb, j, hold b hb j k hj⟩
  · intro b hb hzero
    by_contra hone
    obtain ⟨k, hk⟩ := Option.ne_none_iff_exists'.mp hone
    have hb' : b ∈ A ∧ L.kids b 0 ≠ none := by
      rcases hcases b hb 1 k hk with ⟨hb, hk⟩ | ⟨rfl, rfl, -⟩
      · refine ⟨hb, fun hnil => ?_⟩
        cases (h.first b hb hnil).symm.trans hk
      · exact ⟨ha, hfirst rfl⟩
    obtain ⟨u, hu⟩ := Option.ne_none_iff_exists'.mp hb'.2
    cases hzero.symm.trans (hold b hb'.1 0 u hu)
  · intro b hb u v hu hv
    rcases hcases b hb 0 u hu with ⟨hbA, hu⟩ | ⟨rfl, rfl, rfl⟩
    · rcases hcases b hb 1 v hv with ⟨-, hv⟩ | ⟨rfl, rfl, rfl⟩
      · rw [hlabel b hbA, hlabel u (h.down b hbA 0 u hu).1, hlabel v (h.down b hbA 1 v hv).1]
        exact h.differ b hbA u v hu hv
      · rw [hlabel b hbA, hlabel u (h.down b hbA 0 u hu).1]
        exact hapart u hu
    · rcases hcases b hb 1 v hv with ⟨hbA, hv⟩ | ⟨-, hone, -⟩
      · cases (h.first b hbA hnone).symm.trans hv
      · cases hone

/-- A node with another kid in the place of `k` has a first kid. -/
theorem update_kids_ne_none (ha : a ∈ A)
    (hk : L.kids a i = some k) (c : ι) : update (L.kids a) i (some c) 0 ≠ none := by
  intro hzero
  rcases eq_or_ne i 0 with rfl | hi
  · cases hzero
  · rw [update_of_ne (Ne.symm hi)] at hzero
    -- the kid would be an only kid in the second place
    have hnone := h.first a ha hzero
    obtain rfl : i = 1 := by omega
    cases hnone.symm.trans hk

section

variable (hord : LabelOrder rank above apart)

include hord

/-- Put a node between `a` and its kid `k`. -/
theorem splitEdge (hx : x ∉ A) (ha : a ∈ A) (hk : L.kids a i = some k) (habove : above (L.label a) (M.label x))
    (hbelow : above (M.label x) (L.label k)) (hlabel : ∀ b ∈ A, M.label b = L.label b)
    (hparent : ∀ b ∈ A, b ≠ k → M.parent b = L.parent b)
    (hkids : ∀ b ∈ A, b ≠ a → M.kids b = L.kids b) (hxparent : M.parent x = some a)
    (hkparent : M.parent k = some x) (hxkid : M.kids x 0 = some k) (hxkid' : M.kids x 1 = none)
    (hakids : M.kids a = update (L.kids a) i (some x)) :
    LinkedTree above apart r (insert x A) M := by
  obtain ⟨hkA, -, -⟩ := h.down a ha i k hk
  have hcases : ∀ b ∈ insert x A, ∀ j c, M.kids b j = some c →
      (b ∈ A ∧ L.kids b j = some c ∧ ¬ (b = a ∧ j = i)) ∨ (b = a ∧ j = i ∧ c = x) ∨
        (b = x ∧ j = 0 ∧ c = k) := by
    rintro b (rfl | hb) j c hc
    · obtain rfl := eq_zero_of_kid hxkid' hc
      exact .inr (.inr ⟨rfl, rfl, Option.some.inj (hc.symm.trans hxkid)⟩)
    · rcases (kids_iff hkids hakids hb).mp hc with hc | hc
      · exact .inl ⟨hb, hc⟩
      · exact .inr (.inl hc)
  constructor
  · exact Set.mem_insert_of_mem _ h.root
  · rw [hparent r h.root (h.ne_root ha hk).symm, h.head]
  · intro b hb j c hc
    rcases hcases b hb j c hc with ⟨hb, hc, hne⟩ | ⟨rfl, rfl, rfl⟩ | ⟨rfl, rfl, rfl⟩
    · obtain ⟨hcA, hcp, hca⟩ := h.down b hb j c hc
      have hck : c ≠ k := by
        rintro rfl
        exact hne (h.place_unique hord hb ha hc hk)
      rw [hlabel b hb, hlabel c hcA, hparent c hcA hck]
      exact ⟨Set.mem_insert_of_mem _ hcA, hcp, hca⟩
    · rw [hlabel b ha]
      exact ⟨Set.mem_insert .., hxparent, habove⟩
    · rw [hlabel c hkA]
      exact ⟨Set.mem_insert_of_mem _ hkA, hkparent, hbelow⟩
  · rintro c (rfl | hc) hne
    · exact ⟨a, Set.mem_insert_of_mem _ ha, i, hakids ▸ update_self ..⟩
    · obtain ⟨b, hb, j, hj⟩ := h.up c hc hne
      by_cases hplace : b = a ∧ j = i
      · obtain ⟨rfl, rfl⟩ := hplace
        obtain rfl := Option.some.inj (hj.symm.trans hk)
        exact ⟨x, Set.mem_insert .., 0, hxkid⟩
      · exact ⟨b, Set.mem_insert_of_mem _ hb, j, (kids_iff hkids hakids hb).mpr (.inl ⟨hj, hplace⟩)⟩
  · rintro b (rfl | hb) hzero
    · exact hxkid'
    · rcases eq_or_ne b a with rfl | hba
      · rw [hakids] at hzero
        exact absurd hzero (h.update_kids_ne_none hb hk x)
      · rw [hkids b hb hba] at hzero ⊢
        exact h.first b hb hzero
  · intro b hb u v hu hv
    rcases hcases b hb 0 u hu with ⟨hbA, hu, hneu⟩ | ⟨rfl, rfl, rfl⟩ | ⟨rfl, -, rfl⟩
    · rcases hcases b hb 1 v hv with ⟨-, hv, -⟩ | ⟨rfl, rfl, rfl⟩ | ⟨rfl, hone, -⟩
      · rw [hlabel b hbA, hlabel u (h.down b hbA 0 u hu).1, hlabel v (h.down b hbA 1 v hv).1]
        exact h.differ b hbA u v hu hv
      · rw [hlabel b hbA, hlabel u (h.down b hbA 0 u hu).1]
        have hdiff := hord.symm (h.differ b hbA u k hu hk)
        exact hord.symm ((hord.congr habove hbelow).mpr hdiff)
      · cases hone
    · rcases hcases b hb 1 v hv with ⟨-, hv, -⟩ | ⟨-, hone, -⟩ | ⟨-, hone, -⟩
      · rw [hlabel b ha, hlabel v (h.down b ha 1 v hv).1]
        exact (hord.congr habove hbelow).mpr (h.differ b ha k v hk hv)
      · cases hone
      · cases hone
    · cases hxkid'.symm.trans hv

/-- Take a leaf out; the kid that is left is put in the first place. -/
theorem dropLeaf (ha : a ∈ A) (hy : L.kids a i = some y) (hyzero : L.kids y 0 = none)
    (hlabel : ∀ b ∈ A, M.label b = L.label b) (hparent : ∀ b ∈ A, M.parent b = L.parent b)
    (hkids : ∀ b ∈ A, b ≠ a → M.kids b = L.kids b) (hakid : M.kids a 0 = L.kids a (i + 1))
    (hakid' : M.kids a 1 = none) : LinkedTree above apart r (A \ {y}) M := by
  have hnext : i + 1 ≠ i := by
    fin_cases i <;> decide
  -- the edges of the new tree are those of the old one that do not lead to `y`
  have hcases : ∀ b ∈ A, ∀ j c, M.kids b j = some c →
      c ≠ y ∧ ∃ j', L.kids b j' = some c ∧ (b ≠ a → j' = j) := by
    intro b hb j c hc
    rcases eq_or_ne b a with rfl | hba
    · obtain rfl := eq_zero_of_kid hakid' hc
      rw [hakid] at hc
      refine ⟨?_, i + 1, hc, fun hne => absurd rfl hne⟩
      rintro rfl
      exact hnext (h.kid_unique hord hb hc hy)
    · rw [hkids b hb hba] at hc
      refine ⟨?_, j, hc, fun _ => rfl⟩
      rintro rfl
      exact hba (h.place_unique hord hb ha hc hy).1
  constructor
  · exact ⟨h.root, (h.ne_root ha hy).symm⟩
  · rw [hparent r h.root, h.head]
  · rintro b ⟨hb, -⟩ j c hc
    obtain ⟨hcy, j', hj', -⟩ := hcases b hb j c hc
    obtain ⟨hcA, hcp, hca⟩ := h.down b hb j' c hj'
    rw [hlabel b hb, hlabel c hcA, hparent c hcA]
    exact ⟨⟨hcA, hcy⟩, hcp, hca⟩
  · rintro c ⟨hc, hcy⟩ hne
    obtain ⟨b, hb, j, hj⟩ := h.up c hc hne
    have hby : b ≠ y := by
      rintro rfl
      have hj' : j = 0 ∨ j = 1 := by omega
      rcases hj' with rfl | rfl
      · cases hyzero.symm.trans hj
      · cases (h.first b hb hyzero).symm.trans hj
    rcases eq_or_ne b a with rfl | hba
    · have hji : j = i + 1 := by
        have hne : j ≠ i := by
          rintro rfl
          exact hcy (Option.some.inj (hj.symm.trans hy))
        omega
      exact ⟨b, ⟨hb, hby⟩, 0, by rw [hakid, ← hji, hj]⟩
    · exact ⟨b, ⟨hb, hby⟩, j, by rw [hkids b hb hba, hj]⟩
  · rintro b ⟨hb, -⟩ hzero
    by_cases hba : b = a
    · exact hba ▸ hakid'
    · rw [hkids b hb hba] at hzero ⊢
      exact h.first b hb hzero
  · rintro b ⟨hb, -⟩ u v hu hv
    have hba : b ≠ a := by
      rintro rfl
      cases hakid'.symm.trans hv
    rw [hkids b hb hba] at hu hv
    rw [hlabel b hb, hlabel u (h.down b hb 0 u hu).1, hlabel v (h.down b hb 1 v hv).1]
    exact h.differ b hb u v hu hv

/-- Take out a node with one kid, which takes its place. -/
theorem splice (ha : a ∈ A) (hy : L.kids a i = some y) (hc : L.kids y 0 = some c) (hyone : L.kids y 1 = none)
    (hlabel : ∀ b ∈ A, M.label b = L.label b) (hparent : ∀ b ∈ A, b ≠ c → M.parent b = L.parent b)
    (hcparent : M.parent c = some a) (hkids : ∀ b ∈ A, b ≠ a → M.kids b = L.kids b)
    (hakids : M.kids a = update (L.kids a) i (some c)) :
    LinkedTree above apart r (A \ {y}) M := by
  obtain ⟨hyA, -, hay⟩ := h.down a ha i y hy
  obtain ⟨hcA, -, hyc⟩ := h.down y hyA 0 c hc
  have hac : above (L.label a) (L.label c) := hord.trans hay hyc
  have hya : a ≠ y := (h.kid_ne hord ha hy).symm
  have hcy : c ≠ y := h.kid_ne hord hyA hc
  have hcases : ∀ b ∈ A, b ≠ y → ∀ j d, M.kids b j = some d →
      (L.kids b j = some d ∧ d ≠ y ∧ d ≠ c) ∨ (b = a ∧ j = i ∧ d = c) := by
    intro b hb hby j d hd
    rcases (kids_iff hkids hakids hb).mp hd with ⟨hd, hplace⟩ | hd
    · refine .inl ⟨hd, ?_, ?_⟩
      · rintro rfl
        exact hplace (h.place_unique hord hb ha hd hy)
      · rintro rfl
        exact hby (h.place_unique hord hb hyA hd hc).1
    · exact .inr hd
  constructor
  · exact ⟨h.root, (h.ne_root ha hy).symm⟩
  · rw [hparent r h.root (h.ne_root hyA hc).symm, h.head]
  · rintro b ⟨hb, hby⟩ j d hd
    rcases hcases b hb hby j d hd with ⟨hd, hdy, hdc⟩ | ⟨rfl, rfl, rfl⟩
    · obtain ⟨hdA, hdp, hda⟩ := h.down b hb j d hd
      rw [hlabel b hb, hlabel d hdA, hparent d hdA hdc]
      exact ⟨⟨hdA, hdy⟩, hdp, hda⟩
    · rw [hlabel b ha, hlabel d hcA]
      exact ⟨⟨hcA, hcy⟩, hcparent, hac⟩
  · rintro d ⟨hd, hdy⟩ hne
    obtain ⟨b, hb, j, hj⟩ := h.up d hd hne
    by_cases hby : b = y
    · -- the kid of `y`
      subst hby
      obtain rfl := eq_zero_of_kid hyone hj
      obtain rfl := Option.some.inj (hj.symm.trans hc)
      exact ⟨a, ⟨ha, hya⟩, i, hakids ▸ update_self ..⟩
    · refine ⟨b, ⟨hb, hby⟩, j, (kids_iff hkids hakids hb).mpr (.inl ⟨hj, ?_⟩)⟩
      rintro ⟨rfl, rfl⟩
      exact hdy (Option.some.inj (hj.symm.trans hy))
  · rintro b ⟨hb, -⟩ hzero
    rcases eq_or_ne b a with rfl | hba
    · rw [hakids] at hzero
      exact absurd hzero (h.update_kids_ne_none hb hy c)
    · rw [hkids b hb hba] at hzero ⊢
      exact h.first b hb hzero
  · rintro b ⟨hb, hby⟩ u v hu hv
    rcases hcases b hb hby 0 u hu with ⟨hu, -, -⟩ | ⟨rfl, rfl, rfl⟩
    · rcases hcases b hb hby 1 v hv with ⟨hv, -, -⟩ | ⟨rfl, rfl, rfl⟩
      · rw [hlabel b hb, hlabel u (h.down b hb 0 u hu).1, hlabel v (h.down b hb 1 v hv).1]
        exact h.differ b hb u v hu hv
      · rw [hlabel b hb, hlabel u (h.down b hb 0 u hu).1, hlabel v hcA]
        have hdiff := hord.symm (h.differ b hb u y hu hy)
        exact hord.symm ((hord.congr hay hyc).mp hdiff)
    · rcases hcases b hb hby 1 v hv with ⟨hv, -, -⟩ | ⟨-, hone, -⟩
      · rw [hlabel b hb, hlabel u hcA, hlabel v (h.down b hb 1 v hv).1]
        exact (hord.congr hay hyc).mp (h.differ b hb y v hy hv)
      · cases hone

end

end

/-! ### Reaching the nodes -/

/-- `b` is `a` or one of the nodes below it. -/
def Below (L : Links ι α) : ι → ι → Prop :=
  Relation.ReflTransGen fun a k => ∃ i, L.kids a i = some k

theorem reaches (h : LinkedTree above apart r A L) (hord : LabelOrder rank above apart) :
    ∀ a ∈ A, Below L r a := by
  -- induction on the rank: a parent has a lower one
  intro a ha
  induction hn : rank (L.label a) using Nat.strong_induction_on generalizing a with
  | _ n ih =>
    by_cases har : a = r
    · exact har ▸ .refl
    · obtain ⟨p, hp, i, hi⟩ := h.up a ha har
      have hlt := hord.rank_lt (h.down p hp i a hi).2.2
      exact (ih _ (hn ▸ hlt) p hp rfl).tail ⟨i, hi⟩

theorem below_spec (h : LinkedTree above apart r A L) (hord : LabelOrder rank above apart)
    (ha : a ∈ A) (hab : Below L a b) : b ∈ A ∧ (b = a ∨ above (L.label a) (L.label b)) := by
  induction hab with
  | refl => exact ⟨ha, .inl rfl⟩
  | tail _ hstep ih =>
    obtain ⟨hb, hab⟩ := ih
    obtain ⟨i, hi⟩ := hstep
    obtain ⟨hc, -, hbc⟩ := h.down _ hb i _ hi
    rcases hab with rfl | hab
    · exact ⟨hc, .inr hbc⟩
    · exact ⟨hc, .inr (hord.trans hab hbc)⟩

theorem below_cases (hab : Below L a b) : b = a ∨ ∃ i k, L.kids a i = some k ∧ Below L k b := by
  rcases Relation.ReflTransGen.cases_head hab with heq | ⟨k, ⟨i, hi⟩, hk⟩
  · exact .inl heq.symm
  · exact .inr ⟨i, k, hi, hk⟩

end LinkedTree
