/-
# The trie as a prefix map

What a trie is for: it stores prefixes of keys with values, and finds the shortest
prefix that matches a key.  `TrieSystem` runs the trie next to the list of the
prefixes that are stored, each with the handle that `insert` returned for it.

* `StoredPrefix.Shortest`  — the abstract answer to a lookup.
* `TrieSystem.Refines`     — the nodes with a value are the stored prefixes.
* `Trie.WellFormed`        — the structure of the nodes, read off the heap.
-/
import Mathlib
import Gem5.TrieRemove

variable {w : ℕ} {V : Type}

/-- A stored prefix: the first `width` bits of a key, the others cleared. -/
@[ext]
structure StoredPrefix (w : ℕ) (V : Type) where
  handle : ℕ
  key : BitVec w
  width : ℕ
  value : V

namespace StoredPrefix

def Matches (e : StoredPrefix w V) (key : BitVec w) : Prop := key &&& prefixMask w e.width = e.key

instance (e : StoredPrefix w V) (key : BitVec w) : Decidable (e.Matches key) :=
  inferInstanceAs (Decidable (_ = _))

/-- No stored prefix that matches is shorter. -/
def Shortest (stored : List (StoredPrefix w V)) (key : BitVec w) (e : StoredPrefix w V) : Prop :=
  e.Matches key ∧ ∀ e' ∈ stored, e'.Matches key → e.width ≤ e'.width

instance (stored : List (StoredPrefix w V)) (key : BitVec w) (e : StoredPrefix w V) :
    Decidable (Shortest stored key e) := inferInstanceAs (Decidable (_ ∧ _))

end StoredPrefix

/-- A trie and what is stored in it. -/
structure TrieSystem (w : ℕ) (V : Type) where
  trie : Trie w V
  stored : List (StoredPrefix w V)

inductive TrieOp (w : ℕ) (V : Type)
  | insert (key : BitVec w) (width : ℕ) (val : V)
  | remove (handle : ℕ)
  | removeKey (key : BitVec w)

namespace TrieSystem

def create : TrieSystem w V := ⟨.create, []⟩

def step (s : TrieSystem w V) : TrieOp w V → Except Abort (TrieSystem w V)
  | .insert key width val =>
    (s.trie.insert key width val).map fun r =>
      ⟨r.2, ⟨r.1, key &&& prefixMask w width, width, val⟩ :: s.stored⟩
  | .remove handle =>
    (s.trie.remove handle).map fun r => ⟨r.2, s.stored.filter fun e => e.handle ≠ handle⟩
  | .removeKey key =>
    (s.trie.removeKey key).map fun r =>
      ⟨r.2, s.stored.filter fun e => ¬ StoredPrefix.Shortest s.stored key e⟩

/-- A new prefix is not empty, fits the key type and is not stored; a handle is live. -/
def Allowed (s : TrieSystem w V) : TrieOp w V → Prop
  | .insert key width _ => 1 ≤ width ∧ width ≤ w ∧
    ∀ e ∈ s.stored, ¬ (e.width = width ∧ e.key = key &&& prefixMask w width)
  | .remove handle => ∃ e ∈ s.stored, e.handle = handle
  | .removeKey _ => True

instance (s : TrieSystem w V) : (op : TrieOp w V) → Decidable (s.Allowed op)
  | .insert _ _ _ => inferInstanceAs (Decidable (_ ∧ _))
  | .remove _ => inferInstanceAs (Decidable (∃ e ∈ _, _))
  | .removeKey _ => inferInstanceAs (Decidable True)

/-! ## Refinement -/

/-- The heap holds a trie and nothing else, and its nodes with a value are the stored prefixes. -/
structure Refines (s : TrieSystem w V) (A : Set ℕ) (N : ℕ → TrieNode w V) : Prop where
  holds : s.trie.Holds A N ∅
  domain : ∀ b, s.trie.nodes b ≠ none → b ∈ A
  stored : ∀ e, e ∈ s.stored ↔ e.handle ∈ A ∧ (N e.handle).key = e.key ∧
    (N e.handle).width = e.width ∧ (N e.handle).value = some e.value

variable {s : TrieSystem w V} {A : Set ℕ} {N : ℕ → TrieNode w V} {e : StoredPrefix w V} {key : BitVec w}

theorem Refines.value_ne_none (h : s.Refines A N) (he : e ∈ s.stored) : (N e.handle).value ≠ none := by
  rw [((h.stored e).mp he).2.2.2]
  exact Option.some_ne_none _

theorem Refines.agree_iff (h : s.Refines A N) (he : e ∈ s.stored) :
    Agree (N e.handle).width key (N e.handle).key ↔ e.Matches key := by
  obtain ⟨hA, hkey, hwidth, -⟩ := (h.stored e).mp he
  have hnormal := h.holds.normal _ hA
  rw [← hnormal.matches_iff]
  unfold TrieNode.matches StoredPrefix.Matches
  rw [decide_eq_true_iff, hnormal.1, hwidth, hkey]

/-- A node with a value has its entry. -/
theorem Refines.exists_stored (h : s.Refines A N) {b : ℕ} (hb : b ∈ A) (hv : (N b).value ≠ none) :
    ∃ e ∈ s.stored, e.handle = b := by
  obtain ⟨v, hv⟩ := Option.ne_none_iff_exists'.mp hv
  exact ⟨⟨b, (N b).key, (N b).width, v⟩, (h.stored _).mpr ⟨hb, rfl, rfl, hv⟩, rfl⟩

/-- The shortest match among the nodes is the one among the entries. -/
theorem Refines.shortest_iff (h : s.Refines A N) {b : ℕ} (hb : Trie.Shortest A N key b)
    (he : e ∈ s.stored) : StoredPrefix.Shortest s.stored key e ↔ e.handle = b := by
  obtain ⟨hbA, hbv, hbagree, hbmin⟩ := hb
  constructor
  · rintro ⟨hmatch, hmin⟩
    obtain ⟨hA, -, hwidth, -⟩ := (h.stored e).mp he
    have hcases := hbmin e.handle hA (h.value_ne_none he) ((h.agree_iff he).mpr hmatch)
    obtain ⟨e', he', rfl⟩ := h.exists_stored hbA hbv
    have hle := hmin e' he' ((h.agree_iff he').mp hbagree)
    have hwidth' := ((h.stored e').mp he').2.2.1
    omega
  · rintro rfl
    refine ⟨(h.agree_iff he).mp hbagree, fun e' he' hmatch => ?_⟩
    have hwidth := ((h.stored e).mp he).2.2.1
    obtain ⟨hA', -, hwidth', -⟩ := (h.stored e').mp he'
    rcases hbmin e'.handle hA' (h.value_ne_none he') ((h.agree_iff he').mpr hmatch) with heq | hlt
    · rw [heq] at hwidth'
      omega
    · omega

theorem Refines.insert {m : ℕ} {val : V} (h : s.Refines A N) (hok : s.Allowed (.insert key m val)) :
    ∃ s' A' N', s.step (.insert key m val) = .ok s' ∧ s'.Refines A' N' := by
  obtain ⟨hpos, hm, hnew⟩ := hok
  obtain ⟨handle, t', A', N', heq, hins⟩ := h.holds.insert hpos hm key val fun b hb hbv hsame => by
    obtain ⟨e, he, rfl⟩ := h.exists_stored hb hbv
    obtain ⟨-, hkey, hwidth, -⟩ := (h.stored e).mp he
    exact hnew e he ⟨hwidth ▸ hsame.1, hkey ▸ hsame.2⟩
  refine ⟨⟨t', ⟨handle, key &&& prefixMask w m, m, val⟩ :: s.stored⟩, A', N', ?_, hins.holds, ?_, ?_⟩
  · show (s.trie.insert key m val).map _ = _
    rw [heq]
    rfl
  · intro b hb
    rcases hins.domain b hb with hb | hb
    · have hbA := h.domain b hb
      by_cases hbh : b = handle
      · exact hbh ▸ hins.mem
      · exact (hins.keeps b hbA hbh).1
    · exact hb
  · intro e
    rw [List.mem_cons]
    constructor
    · rintro (rfl | he)
      · exact ⟨hins.mem, hins.data⟩
      · obtain ⟨hA, hkey, hwidth, hvalue⟩ := (h.stored e).mp he
        have hne : e.handle ≠ handle := by
          intro heq
          rw [heq] at hA hvalue
          rw [hins.unused hA] at hvalue
          cases hvalue
        obtain ⟨hA', hsame⟩ := hins.keeps e.handle hA hne
        refine ⟨hA', hsame.1.trans hkey, ?_, hsame.2.2.trans hvalue⟩
        exact (congrArg Prod.snd hsame.label).trans hwidth
    · rintro ⟨hA', hkey, hwidth, hvalue⟩
      by_cases hne : e.handle = handle
      · left
        rw [hne] at hkey hwidth hvalue
        obtain ⟨hkey', hwidth', hvalue'⟩ := hins.data
        exact StoredPrefix.ext hne (hkey.symm.trans hkey') (hwidth.symm.trans hwidth')
          (Option.some.inj (hvalue.symm.trans hvalue'))
      · right
        have hA : e.handle ∈ A := by
          by_contra hA
          have hnone := hins.others e.handle hA' hA hne
          rw [hnone] at hvalue
          cases hvalue
        have hsame := (hins.keeps e.handle hA hne).2
        refine (h.stored e).mpr ⟨hA, hsame.1.symm.trans hkey, ?_, hsame.2.2.symm.trans hvalue⟩
        exact (congrArg Prod.snd hsame.label).symm.trans hwidth

/-- Taking out the node of a live handle takes out its entry. -/
theorem Refines.removed {y : ℕ} {t' : Trie w V} {A' : Set ℕ} {N' : ℕ → TrieNode w V}
    {stored' : List (StoredPrefix w V)} (h : s.Refines A N)
    (hrem : Trie.Removed s.trie A N y t' A' N')
    (hstored : ∀ e, e ∈ stored' ↔ e ∈ s.stored ∧ e.handle ≠ y) :
    (TrieSystem.mk t' stored').Refines A' N' := by
  refine ⟨hrem.holds, fun b hb => ?_, fun e => ?_⟩
  · obtain ⟨hb, himp⟩ := hrem.domain b hb
    exact himp (h.domain b hb)
  · rw [hstored]
    constructor
    · rintro ⟨he, hne⟩
      obtain ⟨hA, hkey, hwidth, hvalue⟩ := (h.stored e).mp he
      have hA' := hrem.keeps e.handle hA hne (h.value_ne_none he)
      have hsame := (hrem.data e.handle hA').2.1 hne
      refine ⟨hA', hsame.1.trans hkey, ?_, hsame.2.2.trans hvalue⟩
      exact (congrArg Prod.snd hsame.label).trans hwidth
    · rintro ⟨hA', hkey, hwidth, hvalue⟩
      obtain ⟨hA, hdata, hgone⟩ := hrem.data e.handle hA'
      have hne : e.handle ≠ y := by
        intro heq
        rw [hgone heq] at hvalue
        cases hvalue
      have hsame := hdata hne
      refine ⟨(h.stored e).mpr ⟨hA, hsame.1.symm.trans hkey, ?_, hsame.2.2.symm.trans hvalue⟩, hne⟩
      exact (congrArg Prod.snd hsame.label).symm.trans hwidth

theorem Refines.remove (h : s.Refines A N) (he : e ∈ s.stored) :
    ∃ t' A' N', s.trie.remove e.handle = .ok (some e.value, t') ∧
      Trie.Removed s.trie A N e.handle t' A' N' := by
  obtain ⟨hA, -, -, hvalue⟩ := (h.stored e).mp he
  exact h.holds.remove hA hvalue

theorem Refines.step {op : TrieOp w V} (h : s.Refines A N) (hok : s.Allowed op) :
    ∃ s' A' N', s.step op = .ok s' ∧ s'.Refines A' N' := by
  cases op with
  | insert key m val => exact h.insert hok
  | remove handle =>
    obtain ⟨e, he, rfl⟩ := hok
    obtain ⟨t', A', N', heq, hrem⟩ := h.remove he
    refine ⟨⟨t', s.stored.filter fun e' => e'.handle ≠ e.handle⟩, A', N', ?_, h.removed hrem ?_⟩
    · show (s.trie.remove e.handle).map _ = _
      rw [heq]
      rfl
    · intro e'
      rw [List.mem_filter, decide_eq_true_iff]
  | removeKey key =>
    obtain ⟨res, hlookup, hsome, hnone⟩ := h.holds.lookupHandle key
    show ∃ s' A' N', (s.trie.removeKey key).map _ = .ok s' ∧ _
    unfold Trie.removeKey
    rw [hlookup]
    cases res with
    | none =>
      -- nothing matches, so nothing is the shortest match
      have hfilter : (s.stored.filter fun e => ¬ StoredPrefix.Shortest s.stored key e) = s.stored := by
        refine List.filter_eq_self.mpr fun e he => decide_eq_true fun hshort => ?_
        exact hnone rfl e.handle ((h.stored e).mp he).1 (h.value_ne_none he)
          ((h.agree_iff he).mpr hshort.1)
      refine ⟨s, A, N, ?_, h⟩
      show Except.ok (TrieSystem.mk s.trie (s.stored.filter _)) = _
      rw [hfilter]
    | some b =>
      have hshort := hsome b rfl
      obtain ⟨e, he, rfl⟩ := h.exists_stored hshort.1 hshort.2.1
      obtain ⟨t', A', N', heq, hrem⟩ := h.remove he
      refine ⟨⟨t', s.stored.filter fun e => ¬ StoredPrefix.Shortest s.stored key e⟩, A', N', ?_,
        h.removed hrem ?_⟩
      · show (s.trie.remove e.handle).map _ = _
        rw [heq]
        rfl
      · intro e'
        rw [List.mem_filter, decide_eq_true_iff]
        exact and_congr_right fun he' => not_congr (h.shortest_iff hshort he')

theorem refines_create : (create : TrieSystem w V).Refines {0} fun _ => .new 0 0 none := by
  have hmask : (TrieNode.new 0 0 none : TrieNode w V).mask = prefixMask w 0 := prefixMask_zero.symm
  have hwidth : (TrieNode.new 0 0 none : TrieNode w V).width = 0 := by
    unfold TrieNode.width
    rw [hmask, maskWidth_prefixMask (Nat.zero_le w)]
  have hnodes : (create : TrieSystem w V).trie.nodes =
      Function.update (fun _ => none) 0 (some (.new 0 0 none)) := rfl
  refine ⟨⟨?_, ?_, ?_, ⟨hwidth, rfl⟩, ?_, ?_⟩, ?_, ?_⟩
  · rintro _ rfl
    rw [hnodes, Function.update_self]
  · rintro _ rfl
    exact one_pos
  · intro _ _
    unfold TrieNode.Normal
    rw [hwidth]
    refine ⟨hmask, ?_⟩
    show (0 : BitVec w) &&& 0 &&& 0 = 0 &&& 0
    rw [BitVec.and_self, BitVec.and_self]
  · exact ⟨rfl, rfl, nofun, fun k hk hk0 => absurd hk hk0, fun _ _ _ => rfl, nofun⟩
  · exact fun b hb _ hb0 => absurd hb hb0
  · intro b hb
    by_contra hb0
    rw [hnodes, Function.update_of_ne hb0] at hb
    exact hb rfl
  · exact fun e => ⟨nofun, nofun⟩

/-- The lookup returns the value of the shortest match. -/
theorem Refines.lookup (h : s.Refines A N) (key : BitVec w) :
    ∃ res, s.trie.lookup key = .ok res ∧
      (∀ v, res = some v ↔ ∃ e ∈ s.stored, StoredPrefix.Shortest s.stored key e ∧ e.value = v) ∧
      (res = none ↔ ∀ e ∈ s.stored, ¬ e.Matches key) := by
  obtain ⟨res, hlookup, hsome, hnone⟩ := h.holds.lookupHandle key
  unfold Trie.lookup
  rw [hlookup]
  cases res with
  | none =>
    have hno : ∀ e ∈ s.stored, ¬ e.Matches key := fun e he hmatch =>
      hnone rfl e.handle ((h.stored e).mp he).1 (h.value_ne_none he) ((h.agree_iff he).mpr hmatch)
    refine ⟨none, rfl, fun v => ⟨nofun, ?_⟩, ⟨fun _ => hno, fun _ => rfl⟩⟩
    rintro ⟨e, he, hshort, -⟩
    exact absurd hshort.1 (hno e he)
  | some b =>
    have hshort := hsome b rfl
    obtain ⟨e, he, rfl⟩ := h.exists_stored hshort.1 hshort.2.1
    obtain ⟨hA, -, -, hvalue⟩ := (h.stored e).mp he
    refine ⟨some e.value, ?_, fun v => ⟨?_, ?_⟩, ⟨nofun, fun hno => ?_⟩⟩
    · show (s.trie.node e.handle >>= _) = _
      rw [h.holds.node hA]
      exact congrArg Except.ok hvalue
    · rintro ⟨⟩
      exact ⟨e, he, (h.shortest_iff hshort he).mpr rfl, rfl⟩
    · rintro ⟨e', he', hshort', rfl⟩
      have heq := (h.shortest_iff hshort he').mp hshort'
      have hvalue' := ((h.stored e').mp he').2.2.2
      rw [heq, hvalue] at hvalue'
      exact hvalue'
    · exact absurd ((h.shortest_iff hshort he).mpr rfl).1 (hno e he)

end TrieSystem

/-! ## The structure of the nodes -/

/-- What holds of the nodes between operations: a mask strictly extends the parent's, under which the
keys agree; an only kid is `kids[0]`; two kids differ in the bit after the mask; and a node without a
value has two kids, the root excepted. -/
structure Trie.WellFormed (t : Trie w V) : Prop where
  longer : ∀ b n, t.nodes b = some n → b ≠ 0 → ∃ a p, n.parent = some a ∧ t.nodes a = some p ∧
    (∃ i, p.kids i = some b) ∧ p.mask &&& n.mask = p.mask ∧ p.mask ≠ n.mask ∧
    n.key &&& p.mask = p.key
  first : ∀ b n, t.nodes b = some n → n.kids 0 = none → n.kids 1 = none
  differ : ∀ b n x y c d, t.nodes b = some n → n.kids 0 = some x → n.kids 1 = some y →
    t.nodes x = some c → t.nodes y = some d →
    c.key.getMsbD (maskWidth n.mask) ≠ d.key.getMsbD (maskWidth n.mask)
  full : ∀ b n, t.nodes b = some n → b ≠ 0 → n.value = none →
    n.kids 0 ≠ none ∧ n.kids 1 ≠ none

theorem TrieSystem.Refines.wellFormed {s : TrieSystem w V} {A : Set ℕ} {N : ℕ → TrieNode w V}
    (h : s.Refines A N) : s.trie.WellFormed := by
  have hnode : ∀ b n, s.trie.nodes b = some n → b ∈ A ∧ n = N b := by
    intro b n hn
    have hb : b ∈ A := h.domain b (by rw [hn]; exact Option.some_ne_none n)
    rw [h.holds.nodes b hb] at hn
    exact ⟨hb, (Option.some.inj hn).symm⟩
  constructor
  · intro b n hn hb0
    obtain ⟨hb, rfl⟩ := hnode b n hn
    obtain ⟨a, ha, i, hi, hparent, -⟩ := h.holds.place hb hb0
    have habove := h.holds.kid_above ha hi
    obtain ⟨hmask, hkey⟩ := h.holds.normal a ha
    have hmask' := (h.holds.normal b hb).1
    have hwa := (N a).width_le
    have hwb := (N b).width_le
    refine ⟨a, N a, hparent, h.holds.nodes a ha, ⟨i, hi⟩, ?_, ?_, ?_⟩
    · rw [hmask, hmask', prefixMask_and_eq_left_iff hwa hwb]
      exact habove.1.le
    · rw [hmask, hmask', ne_eq, prefixMask_inj hwa hwb]
      exact habove.1.ne
    · rw [← hkey, hmask, and_prefixMask_eq_iff hwa]
      exact habove.2
  · intro b n hn
    obtain ⟨hb, rfl⟩ := hnode b n hn
    exact h.holds.tree.first b hb
  · intro b n x y c d hn hx hy hc hd
    obtain ⟨hb, rfl⟩ := hnode b n hn
    obtain ⟨-, rfl⟩ := hnode x c hc
    obtain ⟨-, rfl⟩ := hnode y d hd
    exact h.holds.tree.differ b hb x y hx hy
  · intro b n hn hb0 hvalue
    obtain ⟨hb, rfl⟩ := hnode b n hn
    have hone := h.holds.full b hb (Set.notMem_empty b) hb0 hvalue
    exact ⟨fun hzero => hone (h.holds.tree.first b hb hzero), hone⟩

/-- **The trie refines a prefix map.**  After every sequence of allowed operations: none that is
allowed next fails; a lookup returns the value of the shortest stored prefix that matches, and `NULL`
exactly when none does; a live handle gives back its value; and the nodes are well formed. -/
theorem trie_refines_prefix_map {ops : List (TrieOp w V)} {s : TrieSystem w V}
    (h : Runs (Within TrieSystem.step TrieSystem.Allowed) .create ops s) :
    (∀ op, s.Allowed op → ∃ s', s.step op = .ok s') ∧
    (∀ key, ∃ res, s.trie.lookup key = .ok res ∧
      (∀ v, res = some v ↔ ∃ e ∈ s.stored, StoredPrefix.Shortest s.stored key e ∧ e.value = v) ∧
      (res = none ↔ ∀ e ∈ s.stored, ¬ e.Matches key)) ∧
    (∀ e ∈ s.stored, ∃ t', s.trie.remove e.handle = .ok (some e.value, t')) ∧
    s.trie.WellFormed := by
  obtain ⟨A, N, hs⟩ : ∃ A N, s.Refines A N := by
    refine h.invariant_of_progress (P := fun s => ∃ A N, s.Refines A N) ?_
      ⟨_, _, TrieSystem.refines_create⟩
    rintro s op ⟨A, N, hs⟩ hok
    obtain ⟨s', A', N', heq, hs'⟩ := hs.step hok
    exact ⟨s', heq, A', N', hs'⟩
  refine ⟨fun op hok => ?_, hs.lookup, fun e he => ?_, hs.wellFormed⟩
  · obtain ⟨s', -, -, heq, -⟩ := hs.step hok
    exact ⟨s', heq⟩
  · obtain ⟨t', -, -, heq, -⟩ := hs.remove he
    exact ⟨t', heq⟩

/-- Two prefixes that part at a fork, and a third on the leg to the first: the fork goes when the second
is removed, and the first prefix stays when the third is. -/
theorem trie_refines_prefix_map_fork :
    ∃ s : TrieSystem 4 ℕ, Runs (Within TrieSystem.step TrieSystem.Allowed) .create
        [.insert 0b1010 4 10, .insert 0b1000 3 20, .insert 0b1011 3 30, .removeKey 0b1000,
          .remove 4] s ∧
      (s.stored.map StoredPrefix.handle = [1] ∧ s.trie.lookup 0b1010 = .ok (some 10)) ∧
      (∀ op, s.Allowed op → ∃ s', s.step op = .ok s') ∧
      (∀ key, ∃ res, s.trie.lookup key = .ok res ∧
        (∀ v, res = some v ↔ ∃ e ∈ s.stored, StoredPrefix.Shortest s.stored key e ∧ e.value = v) ∧
        (res = none ↔ ∀ e ∈ s.stored, ¬ e.Matches key)) ∧
      (∀ e ∈ s.stored, ∃ t', s.trie.remove e.handle = .ok (some e.value, t')) ∧
      s.trie.WellFormed := by
  refine exists_runs_and_of_execWithin (by decide +kernel) ?_
  intro s hrun _
  exact trie_refines_prefix_map hrun
