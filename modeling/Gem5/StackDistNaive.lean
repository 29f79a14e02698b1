/-
# The stack distance calculator is the naive stack

The leaves of the tree are the addresses on the stack in the order of their last
addition, so that the leaves after one are the addresses above it
(`Ordered.card_later`).  Every call returns what the naive stack has
(`Refines.call`), and so does every sequence of calls
(`stack_dist_calc_naive`).
-/
import Gem5.StackDistTree
import Mathlib

open List

open Function

/-! ## The entries -/

/-- An address on the stack, with its leaf. -/
structure StackEntry (Addr : Type) where
  addr : Addr
  leaf : ℕ
  marked : Bool

namespace StackEntry

variable {Addr : Type} {es : List (StackEntry Addr)}

def leaves (es : List (StackEntry Addr)) : Finset ℕ := (es.map leaf).toFinset

def naive (es : List (StackEntry Addr)) : NaiveStack Addr := es.map fun e => (e.addr, e.marked)

/-- The entries are in the order of their leaves, and an address has one entry. -/
structure Ordered (es : List (StackEntry Addr)) : Prop where
  sorted : (es.map leaf).Pairwise (· > ·)
  nodup : (es.map addr).Nodup

theorem mem_leaves {x : ℕ} : x ∈ leaves es ↔ ∃ e ∈ es, e.leaf = x := by
  simp [leaves]

theorem leaves_cons (e : StackEntry Addr) (es : List (StackEntry Addr)) :
    leaves (e :: es) = insert e.leaf (leaves es) := by
  simp [leaves]

theorem naive_addr (es : List (StackEntry Addr)) : (naive es).map Prod.fst = es.map addr := by
  simp [naive]

theorem Ordered.eq_of_addr (h : Ordered es) {e f : StackEntry Addr} (he : e ∈ es) (hf : f ∈ es)
    (heq : e.addr = f.addr) : e = f :=
  inj_on_of_nodup_map h.nodup he hf heq

theorem Ordered.eq_of_leaf (h : Ordered es) {e f : StackEntry Addr} (he : e ∈ es) (hf : f ∈ es)
    (heq : e.leaf = f.leaf) : e = f :=
  inj_on_of_nodup_map (h.sorted.imp ne_of_gt) he hf heq

theorem Ordered.tail {e : StackEntry Addr} (h : Ordered (e :: es)) : Ordered es :=
  ⟨(pairwise_cons.mp h.sorted).2, (nodup_cons.mp h.nodup).2⟩

theorem Ordered.lt_head {e : StackEntry Addr} (h : Ordered (e :: es)) :
    ∀ x ∈ leaves es, x < e.leaf := by
  intro x hx
  obtain ⟨f, hf, rfl⟩ := mem_leaves.mp hx
  exact (pairwise_cons.mp h.sorted).1 f.leaf (mem_map_of_mem hf)

/-- **The leaves after an entry** are those of the entries above it. -/
theorem Ordered.card_later [DecidableEq Addr] (h : Ordered es) {e : StackEntry Addr}
    (he : e ∈ es) :
    ((leaves es).filter (e.leaf < ·)).card = (es.map StackEntry.addr).idxOf e.addr := by
  induction es with
  | nil => cases he
  | cons f es ih =>
    rw [leaves_cons, map_cons]
    rcases mem_cons.mp he with rfl | hmem
    · rw [idxOf_cons_self, Finset.card_eq_zero, Finset.filter_eq_empty_iff]
      intro x hx
      rcases Finset.mem_insert.mp hx with rfl | hx
      · exact lt_irrefl _
      · exact (h.lt_head x hx).le.not_gt
    · have hlt : e.leaf < f.leaf := h.lt_head _ (mem_leaves.mpr ⟨e, hmem, rfl⟩)
      have hne : f.addr ≠ e.addr := by
        intro heq
        exact (nodup_cons.mp h.nodup).1 (heq ▸ mem_map_of_mem hmem)
      have hfresh : f.leaf ∉ (leaves es).filter (e.leaf < ·) := by
        intro hf
        exact lt_irrefl _ (h.lt_head _ (Finset.mem_filter.mp hf).1)
      rw [idxOf_cons_ne _ hne, Finset.filter_insert, if_pos hlt,
        Finset.card_insert_of_notMem hfresh, ih h.tail hmem]

/-- The entries without the one of an address. -/
def without [DecidableEq Addr] (es : List (StackEntry Addr)) (a : Addr) : List (StackEntry Addr) :=
  es.filter (·.addr ≠ a)

section Without

variable [DecidableEq Addr] {a : Addr}

theorem mem_without {e : StackEntry Addr} : e ∈ without es a ↔ e ∈ es ∧ e.addr ≠ a := by
  simp [without]

theorem Ordered.without (h : Ordered es) (a : Addr) : Ordered (without es a) where
  sorted := h.sorted.sublist (filter_sublist.map _)
  nodup := h.nodup.sublist (filter_sublist.map _)

theorem naive_without (es : List (StackEntry Addr)) (a : Addr) :
    naive (StackEntry.without es a) = (naive es).filter (·.1 ≠ a) := by
  simp [naive, StackEntry.without, filter_map, comp_def]

theorem map_addr_without (h : Ordered es) (a : Addr) :
    (StackEntry.without es a).map addr = (es.map addr).erase a := by
  rw [h.nodup.erase_eq_filter, filter_map]
  refine congrArg (map addr) (filter_congr fun e _ => ?_)
  by_cases heq : e.addr = a <;> simp [heq]

theorem without_of_notMem (ha : a ∉ es.map addr) : StackEntry.without es a = es := by
  refine filter_eq_self.mpr fun e he => ?_
  simp only [decide_eq_true_eq]
  rintro rfl
  exact ha (mem_map_of_mem he)

theorem Ordered.leaves_without (h : Ordered es) {e : StackEntry Addr} (he : e ∈ es) :
    leaves (StackEntry.without es e.addr) = (leaves es).erase e.leaf := by
  ext x
  simp only [mem_leaves, mem_without, Finset.mem_erase]
  constructor
  · rintro ⟨f, ⟨hf, hne⟩, rfl⟩
    exact ⟨fun heq => hne (h.eq_of_leaf hf he heq ▸ rfl), f, hf, rfl⟩
  · rintro ⟨hne, f, hf, rfl⟩
    exact ⟨f, ⟨hf, fun heq => hne (h.eq_of_addr hf he heq ▸ rfl)⟩, rfl⟩

end Without

/-- The entries with a new mark for an address. -/
def remark [DecidableEq Addr] (es : List (StackEntry Addr)) (a : Addr) (mark : Bool) :
    List (StackEntry Addr) :=
  es.map fun e => if e.addr = a then { e with marked := mark } else e

section Remark

variable [DecidableEq Addr] {a : Addr} {mark : Bool}

theorem map_addr_remark (es : List (StackEntry Addr)) (a : Addr) (mark : Bool) :
    (remark es a mark).map addr = es.map addr := by
  rw [remark, map_map]
  refine map_congr_left fun e _ => ?_
  dsimp only [comp]
  split <;> rfl

theorem map_leaf_remark (es : List (StackEntry Addr)) (a : Addr) (mark : Bool) :
    (remark es a mark).map leaf = es.map leaf := by
  rw [remark, map_map]
  refine map_congr_left fun e _ => ?_
  dsimp only [comp]
  split <;> rfl

theorem naive_remark (es : List (StackEntry Addr)) (a : Addr) (mark : Bool) :
    naive (remark es a mark) =
      (naive es).map fun e => if e.1 = a then (a, mark) else e := by
  rw [remark, naive, naive, map_map, map_map]
  refine map_congr_left fun e _ => ?_
  by_cases heq : e.addr = a <;> simp [heq]

theorem Ordered.remark (h : Ordered es) (a : Addr) (mark : Bool) : Ordered (remark es a mark) where
  sorted := by rw [map_leaf_remark]; exact h.sorted
  nodup := by rw [map_addr_remark]; exact h.nodup

theorem leaves_remark (es : List (StackEntry Addr)) (a : Addr) (mark : Bool) :
    leaves (StackEntry.remark es a mark) = leaves es := by
  rw [leaves, map_leaf_remark, leaves]

theorem exists_mem_remark {b : Addr} {x : ℕ} :
    (∃ e ∈ StackEntry.remark es a mark, e.addr = b ∧ e.leaf = x) ↔
      ∃ e ∈ es, e.addr = b ∧ e.leaf = x := by
  simp only [StackEntry.remark, mem_map]
  constructor
  · rintro ⟨_, ⟨e, he, rfl⟩, hb, hx⟩
    refine ⟨e, he, ?_⟩
    split at hb <;> split at hx <;> exact ⟨hb, hx⟩
  · rintro ⟨e, he, rfl, rfl⟩
    refine ⟨_, ⟨e, he, rfl⟩, ?_⟩
    split <;> exact ⟨rfl, rfl⟩

end Remark

end StackEntry

/-! ## One call -/

open StackEntry

namespace NaiveStack

variable {Addr : Type} [DecidableEq Addr] {es : List (StackEntry Addr)}

theorem distance_of_mem (h : Ordered es) {e : StackEntry Addr} (he : e ∈ es) :
    (naive es).distance e.addr = some ((leaves es).filter (e.leaf < ·)).card := by
  rw [distance, naive_addr, if_pos (mem_map_of_mem he), h.card_later he]

theorem distance_of_notMem {a : Addr} (ha : a ∉ es.map addr) : (naive es).distance a = none := by
  rw [distance, naive_addr, if_neg ha]

theorem marked_of_mem (h : Ordered es) {e : StackEntry Addr} (he : e ∈ es) :
    (naive es).marked e.addr = e.marked := by
  have hfind : ∃ f, es.find? (·.addr = e.addr) = some f := by
    rw [← Option.isSome_iff_exists, find?_isSome]
    exact ⟨e, he, by simp⟩
  obtain ⟨f, hf⟩ := hfind
  have heq : f = e :=
    h.eq_of_addr (mem_of_find?_eq_some hf) he (by simpa using find?_some hf)
  unfold marked naive
  rw [find?_map]
  have : es.find? ((fun p : Addr × Bool => decide (p.1 = e.addr)) ∘ fun e => (e.addr, e.marked)) =
      some f := hf
  rw [this, heq]
  rfl

theorem marked_of_notMem {a : Addr} (ha : a ∉ es.map addr) : (naive es).marked a = false := by
  have hfind : (naive es).find? (·.1 = a) = none := by
    rw [find?_eq_none]
    intro p hp heq
    refine ha ?_
    rw [← naive_addr]
    exact mem_map.mpr ⟨p, hp, by simpa using heq⟩
  rw [marked, hfind]
  rfl

end NaiveStack

namespace StackDistCalc

variable {Addr : Type} {s : StackDistCalc Addr} {es : List (StackEntry Addr)}

/-- **The calculator holds the entries of the stack.** -/
structure Refines (s : StackDistCalc Addr) (es : List (StackEntry Addr)) : Prop where
  ordered : Ordered es
  shape : s.Shape s.index s.index (leaves es)
  aiMap : ∀ a x, s.aiMap a = some x ↔ ∃ e ∈ es, e.addr = a ∧ e.leaf = x
  marked : ∀ e ∈ es, ∃ leaf, s.tree 0 e.leaf = some leaf ∧ leaf.isMarked = e.marked
  stack : s.verifyStack = true → s.stack = es.map StackEntry.addr

namespace Refines

theorem aiMap_of_mem (h : Refines s es) {e : StackEntry Addr} (he : e ∈ es) :
    s.aiMap e.addr = some e.leaf :=
  (h.aiMap _ _).mpr ⟨e, he, rfl, rfl⟩

theorem aiMap_of_notMem (h : Refines s es) {a : Addr} (ha : a ∉ es.map StackEntry.addr) :
    s.aiMap a = none := by
  by_contra hsome
  obtain ⟨x, hx⟩ := Option.ne_none_iff_exists'.mp hsome
  obtain ⟨e, he, rfl, -⟩ := (h.aiMap a x).mp hx
  exact ha (mem_map_of_mem he)

theorem create (verifyStack : Bool) :
    Refines (StackDistCalc.create verifyStack : StackDistCalc Addr) [] where
  ordered := ⟨List.Pairwise.nil, nodup_nil⟩
  shape := shape_create verifyStack
  aiMap a x := by simp [StackDistCalc.create]
  marked e he := absurd he not_mem_nil
  stack _ := rfl

variable [DecidableEq Addr]

/-- **The old entry of an address is found**: what it returns is what the naive stack has. -/
theorem lookup (h : Refines s es) (a : Addr) (addNewNode : Bool) :
    ∃ t, s.lookup a addNewNode = .ok ({ s with
        aiMap := update s.aiMap a (if addNewNode then some s.index else none)
        tree := t }, (naive es).distance a, (naive es).marked a) ∧
      Shape { s with tree := t } s.index s.index (leaves (without es a)) ∧
      ∀ e ∈ without es a, t 0 e.leaf = s.tree 0 e.leaf := by
  unfold StackDistCalc.lookup
  by_cases ha : a ∈ es.map StackEntry.addr
  · obtain ⟨e, he, rfl⟩ := mem_map.mp ha
    obtain ⟨node, hnode, hmark⟩ := h.marked e he
    let aiMap := update s.aiMap e.addr (if addNewNode then some s.index else none)
    have hshape : Shape { s with aiMap := aiMap } s.index s.index (leaves es) :=
      h.shape.congr rfl rfl rfl
    obtain ⟨t, leaf, hleaf, hrun, hshape', hother⟩ :=
      hshape.removeLeaf (le_refl _) (mem_leaves.mpr ⟨e, he, rfl⟩)
    obtain rfl : node = leaf := Option.some.inj (hnode.symm.trans hleaf)
    refine ⟨t, ?_, ?_, ?_⟩
    · rw [h.aiMap_of_mem he, NaiveStack.distance_of_mem h.ordered he,
        NaiveStack.marked_of_mem h.ordered he, ← hmark]
      exact hrun
    · rw [h.ordered.leaves_without he]
      exact hshape'.congr rfl rfl rfl
    · intro f hf
      obtain ⟨hf, hne⟩ := mem_without.mp hf
      exact hother _ fun heq => hne (congrArg StackEntry.addr (h.ordered.eq_of_leaf hf he heq))
  · refine ⟨s.tree, ?_, ?_, fun _ _ => rfl⟩
    · rw [h.aiMap_of_notMem ha, NaiveStack.distance_of_notMem ha, NaiveStack.marked_of_notMem ha]
    · rw [without_of_notMem ha]
      exact h.shape

theorem aiMap_update (h : Refines s es) (a : Addr) (o : Option ℕ) (b : Addr) (x : ℕ) :
    update s.aiMap a o b = some x ↔
      (b = a ∧ o = some x) ∨ ∃ e ∈ without es a, e.addr = b ∧ e.leaf = x := by
  rcases eq_or_ne b a with rfl | hb
  · rw [update_self]
    constructor
    · exact fun ho => .inl ⟨rfl, ho⟩
    · rintro (⟨-, ho⟩ | ⟨e, he, heq, -⟩)
      · exact ho
      · exact absurd heq (mem_without.mp he).2
  · rw [update_of_ne hb, h.aiMap b x]
    constructor
    · rintro ⟨e, he, rfl, rfl⟩
      exact .inr ⟨e, mem_without.mpr ⟨he, hb⟩, rfl, rfl⟩
    · rintro (⟨heq, -⟩ | ⟨e, he, heq, hx⟩)
      · exact absurd heq hb
      · exact ⟨e, (mem_without.mp he).1, heq, hx⟩

/-- **An address is taken off the stack.** -/
theorem remove (h : Refines s es) (a : Addr)
    (hquiet : s.verifyStack = true → a ∉ es.map StackEntry.addr) :
    ∃ s', s.calcStackDistAndUpdate a false =
        .ok (s', (naive es).distance a, (naive es).marked a) ∧
      Refines s' (without es a) ∧ s'.verifyStack = s.verifyStack := by
  obtain ⟨t, hrun, hshape, hother⟩ := h.lookup a false
  refine ⟨_, hrun, ?_, rfl⟩
  refine ⟨h.ordered.without a, hshape.congr rfl rfl rfl, ?_, ?_, ?_⟩
  · intro b x
    simpa using h.aiMap_update a none b x
  · intro e he
    dsimp only
    rw [hother e he]
    exact h.marked e (mem_without.mp he).1
  · intro hverify
    rw [without_of_notMem (hquiet hverify)]
    exact h.stack hverify

/-- **An address is put on top of the stack.** -/
theorem add (h : Refines s es) (a : Addr) :
    ∃ s', s.calcStackDistAndUpdate a true =
        .ok (s', (naive es).distance a, (naive es).marked a) ∧
      Refines s' (⟨a, s.index, false⟩ :: without es a) ∧ s'.verifyStack = s.verifyStack := by
  obtain ⟨t₁, hlookup, hshape₁, hother₁⟩ := h.lookup a true
  have hdist : s.verifyStack = true → stackPosition s.stack a = (naive es).distance a := by
    intro hverify
    rw [h.stack hverify, stackPosition, NaiveStack.distance, naive_addr]
  have hshape₁' : Shape { s with aiMap := update s.aiMap a (some s.index), tree := t₁ }
      s.index s.index (leaves (without es a)) := hshape₁.congr rfl rfl rfl
  obtain ⟨D, next, t, hadd, hshape, ⟨leaf, hleaf, hmark⟩, hother⟩ := hshape₁'.addNew hdist
  have hlt : ∀ e ∈ without es a, e.leaf < s.index := fun e he =>
    hshape₁.live_lt _ (mem_leaves.mpr ⟨e, he, rfl⟩)
  refine ⟨{ s with
      index := s.index + 1
      depth := D
      nextIndex := next
      tree := t
      aiMap := update s.aiMap a (some s.index)
      stack := if s.verifyStack then a :: s.stack.erase a else s.stack }, ?_, ?_, rfl⟩
  · rw [calcStackDistAndUpdate, hlookup]
    dsimp only [bind, Except.bind, if_true]
    rw [if_pos rfl, hadd]
    rfl
  refine ⟨⟨?_, ?_⟩, ?_, ?_, ?_, ?_⟩
  · refine pairwise_cons.mpr ⟨?_, (h.ordered.without a).sorted⟩
    intro x hx
    obtain ⟨e, he, rfl⟩ := mem_map.mp hx
    exact hlt e he
  · refine nodup_cons.mpr ⟨?_, (h.ordered.without a).nodup⟩
    intro hmem
    obtain ⟨e, he, heq⟩ := mem_map.mp hmem
    exact (mem_without.mp he).2 heq
  · rw [leaves_cons]
    exact hshape.congr rfl rfl rfl
  · intro b x
    rw [h.aiMap_update a (some s.index) b x]
    constructor
    · rintro (⟨rfl, hx⟩ | ⟨e, he, heq⟩)
      · exact ⟨_, mem_cons_self, rfl, Option.some.inj hx⟩
      · exact ⟨e, mem_cons_of_mem _ he, heq⟩
    · rintro ⟨e, he, rfl, rfl⟩
      rcases mem_cons.mp he with rfl | he
      · exact .inl ⟨rfl, rfl⟩
      · exact .inr ⟨e, he, rfl, rfl⟩
  · intro e he
    dsimp only
    rcases mem_cons.mp he with rfl | he
    · exact ⟨leaf, hleaf, hmark⟩
    · rw [hother _ (hlt e he).ne]
      dsimp only
      rw [hother₁ e he]
      exact h.marked e (mem_without.mp he).1
  · intro hverify
    rw [if_pos hverify, h.stack hverify, map_cons, map_addr_without h.ordered]

/-- **An address is marked.** -/
theorem mark (h : Refines s es) (a : Addr) (mark : Bool) :
    ∃ s', s.calcStackDist a mark = .ok (s', (naive es).distance a, (naive es).marked a) ∧
      Refines s' (remark es a mark) ∧ s'.verifyStack = s.verifyStack := by
  -- the leaf of the address is written, if it has one
  have hmark : ∃ t, s.markAddr a mark =
        .ok ({ s with tree := t }, (naive es).distance a, (naive es).marked a) ∧
      Shape { s with tree := t } s.index s.index (leaves es) ∧
      ∀ e ∈ es, ∃ leaf, t 0 e.leaf = some leaf ∧
        leaf.isMarked = if e.addr = a then mark else e.marked := by
    unfold markAddr
    by_cases ha : a ∈ es.map StackEntry.addr
    · obtain ⟨e, he, rfl⟩ := mem_map.mp ha
      obtain ⟨node, hnode, hmarked⟩ := h.marked e he
      obtain ⟨t, leaf, hleaf, hrun, hshape, hself, hother⟩ :=
        h.shape.markLeaf (le_refl _) (mem_leaves.mpr ⟨e, he, rfl⟩) mark
      obtain rfl : node = leaf := Option.some.inj (hnode.symm.trans hleaf)
      refine ⟨t, ?_, hshape, ?_⟩
      · rw [h.aiMap_of_mem he, NaiveStack.distance_of_mem h.ordered he,
          NaiveStack.marked_of_mem h.ordered he, ← hmarked]
        exact hrun
      · intro f hf
        by_cases heq : f.addr = e.addr
        · obtain rfl := h.ordered.eq_of_addr hf he heq
          exact ⟨_, hself, (if_pos rfl).symm⟩
        · have hne : f.leaf ≠ e.leaf := fun hleaf =>
            heq (congrArg StackEntry.addr (h.ordered.eq_of_leaf hf he hleaf))
          rw [hother _ hne, if_neg heq]
          exact h.marked f hf
    · refine ⟨s.tree, ?_, h.shape, ?_⟩
      · rw [h.aiMap_of_notMem ha, NaiveStack.distance_of_notMem ha, NaiveStack.marked_of_notMem ha]
      · intro e he
        have hne : e.addr ≠ a := fun heq => ha (heq ▸ mem_map_of_mem he)
        rw [if_neg hne]
        exact h.marked e he
  obtain ⟨t, hrun, hshape, hmarked⟩ := hmark
  have hcheck : StackDistCalc.checkDist { s with tree := t } a ((naive es).distance a) = .ok () := by
    refine if_neg ?_
    rintro ⟨hverify, hne⟩
    refine hne ?_
    rw [h.stack hverify, stackPosition, NaiveStack.distance, naive_addr]
  refine ⟨{ s with tree := t }, ?_, ?_, rfl⟩
  · rw [calcStackDist, hrun]
    dsimp only [bind, Except.bind]
    rw [hcheck]
    rfl
  refine ⟨h.ordered.remark a mark, ?_, ?_, ?_, ?_⟩
  · rw [leaves_remark]
    exact hshape
  · intro b x
    rw [exists_mem_remark]
    exact h.aiMap b x
  · intro f hf
    obtain ⟨e, he, rfl⟩ := mem_map.mp hf
    obtain ⟨leaf, hleaf, hmark⟩ := hmarked e he
    refine ⟨leaf, ?_, ?_⟩
    · split <;> exact hleaf
    · rw [hmark]
      split <;> rfl
  · intro hverify
    rw [map_addr_remark]
    exact h.stack hverify

/-- **One call** returns what the naive stack has, and leaves the calculator with what is then on
the stack. -/
theorem call (h : Refines s es) (c : StackDistCall Addr)
    (hquiet : s.verifyStack = true → ∀ a, c = .calcStackDistAndUpdate a false →
      a ∉ (naive es).map Prod.fst) :
    ∃ s' es', s.call c = .ok (s', (naive es).distance (NaiveStack.address c),
        (naive es).marked (NaiveStack.address c)) ∧
      Refines s' es' ∧ s'.verifyStack = s.verifyStack ∧ naive es' = (naive es).after c := by
  rw [naive_addr] at hquiet
  cases c with
  | calcStackDistAndUpdate a addNewNode =>
    cases addNewNode with
    | false =>
      obtain ⟨s', hrun, href, hverify⟩ := h.remove a fun hv => hquiet hv a rfl
      exact ⟨s', _, hrun, href, hverify, naive_without es a⟩
    | true =>
      obtain ⟨s', hrun, href, hverify⟩ := h.add a
      exact ⟨s', _, hrun, href, hverify, congrArg (cons (a, false)) (naive_without es a)⟩
  | calcStackDist a mark =>
    obtain ⟨s', hrun, href, hverify⟩ := h.mark a mark
    exact ⟨s', _, hrun, href, hverify, naive_remark es a mark⟩

/-- **A sequence of calls.** -/
theorem calls {cs : List (StackDistCall Addr)} : ∀ {s : StackDistCalc Addr} {es}, Refines s es →
    (s.verifyStack = true → (naive es).RemovesNothing cs) →
      ∃ s', s.calls cs = .ok (s', (naive es).results cs) := by
  induction cs with
  | nil => exact fun _ _ => ⟨_, rfl⟩
  | cons c cs ih =>
    intro s es h hquiet
    obtain ⟨s₁, es₁, hcall, href, hverify, hafter⟩ := h.call c fun hv => (hquiet hv).1
    obtain ⟨s', hrest⟩ := ih href fun hv => hafter ▸ (hquiet (hverify ▸ hv)).2
    refine ⟨s', ?_⟩
    rw [StackDistCalc.calls, hcall]
    dsimp only [bind, Except.bind]
    rw [hrest, hafter]
    rfl

end Refines

end StackDistCalc

/-! ## Sequences of calls -/

namespace NaiveStack

variable {Addr : Type} [DecidableEq Addr]

theorem map_fst_filter (ns : NaiveStack Addr) (a : Addr) :
    (ns.filter (·.1 ≠ a)).map Prod.fst = (ns.map Prod.fst).filter (· ≠ a) := by
  rw [filter_map]
  rfl

theorem map_fst_mark (ns : NaiveStack Addr) (a : Addr) (mark : Bool) :
    (ns.after (.calcStackDist a mark)).map Prod.fst = ns.map Prod.fst := by
  rw [after, map_map]
  refine map_congr_left fun e _ => ?_
  by_cases heq : e.1 = a <;> simp [heq]

/-- What is on the stack afterwards does not depend on the marks. -/
theorem map_fst_after {ns ns' : NaiveStack Addr} (h : ns.map Prod.fst = ns'.map Prod.fst)
    (c : StackDistCall Addr) : (ns.after c).map Prod.fst = (ns'.after c).map Prod.fst := by
  cases c with
  | calcStackDistAndUpdate a addNewNode =>
    cases addNewNode with
    | false => rw [after, after, map_fst_filter, map_fst_filter, h]
    | true => rw [after, after, map_cons, map_cons, map_fst_filter, map_fst_filter, h]
  | calcStackDist a mark => rw [map_fst_mark, map_fst_mark, h]

/-- The distances do not depend on the marks. -/
theorem map_fst_results {cs : List (StackDistCall Addr)} :
    ∀ {ns ns' : NaiveStack Addr}, ns.map Prod.fst = ns'.map Prod.fst →
      (ns.results cs).map Prod.fst = (ns'.results cs).map Prod.fst := by
  induction cs with
  | nil => exact fun _ => rfl
  | cons c cs ih =>
    intro ns ns' h
    rw [results, results, map_cons, map_cons, ih (map_fst_after h c)]
    rw [distance, distance, h]

theorem RemovesNothing.congr {cs : List (StackDistCall Addr)} :
    ∀ {ns ns' : NaiveStack Addr}, ns.map Prod.fst = ns'.map Prod.fst →
      ns.RemovesNothing cs → ns'.RemovesNothing cs := by
  induction cs with
  | nil => exact fun _ _ => trivial
  | cons c cs ih => exact fun h hquiet => ⟨h ▸ hquiet.1, ih (map_fst_after h c) hquiet.2⟩

section Insert

variable (pre post : List (StackDistCall Addr)) (a : Addr) (mark : Bool)

theorem RemovesNothing.insert_mark (ns : NaiveStack Addr) (h : ns.RemovesNothing (pre ++ post)) :
    ns.RemovesNothing (pre ++ .calcStackDist a mark :: post) := by
  induction pre generalizing ns with
  | nil => exact ⟨fun b hb => (nomatch hb), h.congr (map_fst_mark ns a mark).symm⟩
  | cons c pre ih => exact ⟨h.1, ih _ h.2⟩

/-- A call of `calcStackDist` in between changes no other distance. -/
theorem results_insert_mark (ns : NaiveStack Addr) :
    ∃ before here after, ns.results (pre ++ .calcStackDist a mark :: post) =
        before ++ here :: after ∧ before.length = pre.length ∧
      (before ++ after).map Prod.fst = (ns.results (pre ++ post)).map Prod.fst := by
  induction pre generalizing ns with
  | nil => exact ⟨[], _, _, rfl, rfl, map_fst_results (map_fst_mark ns a mark)⟩
  | cons c pre ih =>
    obtain ⟨before, here, after, hrun, hlen, hdist⟩ := ih (ns.after c)
    refine ⟨_ :: before, here, after, congrArg (cons _) hrun, congrArg Nat.succ hlen, ?_⟩
    exact congrArg (cons _) hdist

end Insert

end NaiveStack

/-- **The stack distance calculator is the naive stack**: with `verifyStack` off, or as long as no
call takes an address off the stack, every sequence of calls returns the distances and the marks of
the naive stack, and a call of `calcStackDist` put in anywhere leaves the other distances as they
are. -/
theorem stack_dist_calc_naive {Addr : Type} [DecidableEq Addr] {verifyStack : Bool}
    {cs : List (StackDistCall Addr)}
    (hquiet : verifyStack = true → NaiveStack.RemovesNothing [] cs) :
    (∃ s, (StackDistCalc.create verifyStack).calls cs = .ok (s, NaiveStack.results [] cs)) ∧
      ∀ pre post a mark, cs = pre ++ post →
        ∃ s before here after,
          (StackDistCalc.create verifyStack).calls (pre ++ .calcStackDist a mark :: post) =
            .ok (s, before ++ here :: after) ∧
          before.length = pre.length ∧
          (before ++ after).map Prod.fst = (NaiveStack.results [] cs).map Prod.fst := by
  refine ⟨(StackDistCalc.Refines.create verifyStack).calls hquiet, ?_⟩
  rintro pre post a mark rfl
  obtain ⟨s, hs⟩ := (StackDistCalc.Refines.create verifyStack).calls fun hv =>
    NaiveStack.RemovesNothing.insert_mark pre post a mark [] (hquiet hv)
  obtain ⟨before, here, after, hrun, hrest⟩ := NaiveStack.results_insert_mark pre post a mark []
  exact ⟨s, before, here, after, hs.trans (by rw [← hrun]; rfl), hrest⟩

/-- An address is added twice with another one in between, marked, and taken off. -/
theorem stack_dist_calc_naive_removed :
    ∃ s, (StackDistCalc.create false).calls
        [.calcStackDistAndUpdate 64 true, .calcStackDistAndUpdate 128 true,
          .calcStackDistAndUpdate 64 true, .calcStackDist 128 true,
          .calcStackDistAndUpdate 128 false, .calcStackDistAndUpdate 128 true] =
      .ok (s, [(none, false), (none, false), (some 1, false), (some 1, false), (some 1, true),
        (none, false)]) :=
  (stack_dist_calc_naive fun h => Bool.noConfusion h).1
