/-
# Binary heaps in a sequence

The heap algorithms of the C++ library on a range, as its implementation runs
them: `push_heap` moves the last element up through a hole, `pop_heap` moves the
front behind the range, lets the hole sink to a leaf and fills it with the old
last element.  The order is that of a key, smallest key first; a largest-first
heap is one for the dual order.

* `IsHeap key l`            — every element is at least its parent.
* `IsHeap.key_front_le`     — the front is least.
* `isHeap_pushHeap`, `pushHeap_perm` — one more element.
* `popHeap_eq`              — the old front, behind a heap of the others.
-/
import Mathlib

variable {α κ : Type*} [LinearOrder κ] (key : α → κ)

/-- Every element of the range is at least its parent; the front is its own parent. -/
def IsHeap (l : List α) : Prop :=
  ∀ i a b, l[(i - 1) / 2]? = some a → l[i]? = some b → key a ≤ key b

variable {l : List α} {a v : α}

variable {key} in
/-- The front of a heap is least. -/
theorem IsHeap.key_front_le (h : IsHeap key l) (ha : l[0]? = some a) :
    ∀ (i : ℕ) b, l[i]? = some b → key a ≤ key b := by
  intro i
  induction i using Nat.strongRecOn with
  | _ i ih =>
    intro b hb
    rcases eq_zero_or_pos i with rfl | hi
    · rw [ha] at hb
      exact le_of_eq (congrArg key (Option.some.inj hb))
    · have hlen : (i - 1) / 2 < l.length := by
        have := (List.getElem?_eq_some_iff.mp hb).1
        omega
      have hp : l[(i - 1) / 2]? = some l[(i - 1) / 2] := List.getElem?_eq_getElem hlen
      exact le_trans (ih _ (by omega) _ hp) (h i _ _ hp hb)

/-- A range without its last element is still a heap. -/
theorem IsHeap.dropLast (h : IsHeap key l) : IsHeap key l.dropLast := by
  intro i a b ha hb
  rw [List.getElem?_dropLast] at ha hb
  split at ha
  · split at hb
    · exact h i a b ha hb
    · cases hb
  · cases ha

/-! ## Moving a hole up -/

/-- `__push_heap`: the parents larger than `v` move down into the hole, then `v` fills it. -/
def siftUp (l : List α) (hole : ℕ) (v : α) : List α :=
  if hole = 0 then l.set 0 v
  else
    match l[(hole - 1) / 2]? with
    | some p =>
      if key v < key p then siftUp (l.set hole p) ((hole - 1) / 2) v else l.set hole v
    | none => l.set hole v
termination_by hole
decreasing_by omega

/-- `push_heap`: the last element joins the heap before it. -/
def pushHeap (l : List α) : List α :=
  match l.getLast? with
  | some v => siftUp key l (l.length - 1) v
  | none => l

/-- The pairs that do not touch the hole are in order. -/
def OrderedExcept (l : List α) (hole : ℕ) : Prop :=
  ∀ i a b, i ≠ hole → (i - 1) / 2 ≠ hole → l[(i - 1) / 2]? = some a → l[i]? = some b →
    key a ≤ key b

/-- The hole's children are at least the hole's parent. -/
def Bridged (l : List α) (hole : ℕ) : Prop :=
  ∀ i a b, i ≠ hole → (i - 1) / 2 = hole → l[(hole - 1) / 2]? = some a → l[i]? = some b →
    hole ≠ 0 → key a ≤ key b

/-- What `siftUp` starts from: `v` may stand above the hole's children. -/
structure UpReady (l : List α) (hole : ℕ) (v : α) : Prop where
  lt : hole < l.length
  except : OrderedExcept key l hole
  bridged : Bridged key l hole
  below : ∀ i b, i ≠ hole → (i - 1) / 2 = hole → l[i]? = some b → key v ≤ key b

variable {key} in
/-- A hole whose parent is not larger than `v` is filled. -/
theorem UpReady.finish {hole : ℕ} (h : UpReady key l hole v)
    (hstop : ∀ p, hole ≠ 0 → l[(hole - 1) / 2]? = some p → key p ≤ key v) :
    IsHeap key (l.set hole v) := by
  intro i a b ha hb
  have hset : ∀ i, i ≠ hole → (l.set hole v)[i]? = l[i]? := fun i hi =>
    List.getElem?_set_ne (Ne.symm hi)
  have hself : (l.set hole v)[hole]? = some v := List.getElem?_set_self h.lt
  rcases eq_or_ne i hole with rfl | hih
  · rw [hself] at hb
    cases hb
    rcases eq_or_ne i 0 with rfl | h0
    · rw [hself] at ha
      exact le_of_eq (congrArg key (Option.some.inj ha).symm)
    · rw [hset _ (by omega)] at ha
      exact hstop a h0 ha
  · rw [hset i hih] at hb
    by_cases hph : (i - 1) / 2 = hole
    · rw [hph, hself] at ha
      cases ha
      exact h.below i b hih hph hb
    · rw [hset _ hph] at ha
      exact h.except i a b hih hph ha hb

variable {key} in
/-- Moving the parent down keeps the hole ready. -/
theorem UpReady.move {hole : ℕ} {p : α} (h : UpReady key l hole v)
    (h0 : hole ≠ 0) (hp : l[(hole - 1) / 2]? = some p) (hlt : key v < key p) :
    UpReady key (l.set hole p) ((hole - 1) / 2) v := by
  -- with the parent in both places the list is a heap
  have hheap : IsHeap key (l.set hole p) := by
    refine UpReady.finish ⟨h.lt, h.except, h.bridged, fun i b hi hpi hb => ?_⟩ fun q _ hq => ?_
    · exact h.bridged i p b hi hpi hp hb h0
    · exact le_of_eq (congrArg key (Option.some.inj (hq.symm.trans hp)))
  have hparent : (l.set hole p)[(hole - 1) / 2]? = some p := by
    rw [List.getElem?_set_ne (by omega), hp]
  have hchild : ∀ i b, (i - 1) / 2 = (hole - 1) / 2 → (l.set hole p)[i]? = some b →
      key p ≤ key b := fun i b hpi => hheap i p b (hpi ▸ hparent)
  refine ⟨?_, fun i a b _ _ => hheap i a b, fun i a b _ hpi ha hb _ => ?_, fun i b _ hpi hb => ?_⟩
  · exact (List.getElem?_eq_some_iff.mp hparent).1
  · exact (hheap _ a p ha hparent).trans (hchild i b hpi hb)
  · exact hlt.le.trans (hchild i b hpi hb)

variable {key} in
theorem UpReady.isHeap_siftUp {hole : ℕ} (h : UpReady key l hole v) :
    IsHeap key (siftUp key l hole v) := by
  fun_induction siftUp key l hole v with
  | case1 l => exact h.finish fun p h0 => absurd rfl h0
  | case2 l hole h0 p hp hlt ih => exact ih (h.move h0 hp hlt)
  | case3 l hole h0 p hp hge =>
    refine h.finish fun q _ hq => ?_
    rw [hp] at hq
    exact le_of_not_gt (Option.some.inj hq ▸ hge)
  | case4 l hole h0 hnone =>
    refine h.finish fun q _ hq => ?_
    rw [hnone] at hq
    cases hq

/-- Moving an element `p` from position `j` to position `i` leaves room for `v` at `j`. -/
theorem set_set_perm_set {i j : ℕ} {p : α} (hi : i < l.length)
    (hij : i ≠ j) (hp : l[j]? = some p) : ((l.set i p).set j v).Perm (l.set i v) := by
  obtain ⟨hj, rfl⟩ := List.getElem?_eq_some_iff.mp hp
  have hswap := @List.set_set_perm _ (l.set i v) i j (by simpa using hi) (by simpa using hj)
  simpa [List.getElem_set_ne hij, List.set_set] using hswap

/-- The elements stay, with `v` for what was in the hole. -/
theorem siftUp_perm (l : List α) (hole : ℕ) (v : α) (h : hole < l.length) :
    (siftUp key l hole v).Perm (l.set hole v) := by
  fun_induction siftUp key l hole v with
  | case1 l => exact List.Perm.refl _
  | case2 l hole h0 p hp hlt ih =>
    refine (ih (by simp; omega)).trans ?_
    exact set_set_perm_set h (by omega) hp
  | case3 l hole h0 p hp hge => exact List.Perm.refl _
  | case4 l hole h0 hnone => exact List.Perm.refl _

variable {key} in
/-- `push_heap` makes a heap of a heap and one more element. -/
theorem isHeap_pushHeap (h : IsHeap key l) :
    IsHeap key (pushHeap key (l ++ [v])) := by
  have hlast : (l ++ [v]).getLast? = some v := by simp
  have hlen : (l ++ [v]).length - 1 = l.length := by simp
  rw [pushHeap, hlast, hlen]
  apply UpReady.isHeap_siftUp
  have hold : ∀ i b, i ≠ l.length → (l ++ [v])[i]? = some b → l[i]? = some b := by
    intro i b hi hb
    have hlt := (List.getElem?_eq_some_iff.mp hb).1
    rw [List.length_append, List.length_singleton] at hlt
    rwa [List.getElem?_append_left (by omega)] at hb
  -- the hole is the last position, so it has no children
  have hleaf : ∀ i b, i ≠ l.length → (i - 1) / 2 = l.length → (l ++ [v])[i]? = some b → False := by
    intro i b hi hpi hb
    have hlt := (List.getElem?_eq_some_iff.mp hb).1
    rw [List.length_append, List.length_singleton] at hlt
    omega
  refine ⟨by simp, ?_, ?_, ?_⟩
  · intro i a b hi hpi ha hb
    exact h i a b (hold _ _ hpi ha) (hold _ _ hi hb)
  · intro i a b hi hpi _ hb _
    exact (hleaf i b hi hpi hb).elim
  · intro i b hi hpi hb
    exact (hleaf i b hi hpi hb).elim

theorem pushHeap_perm (l : List α) (v : α) : (pushHeap key (l ++ [v])).Perm (l ++ [v]) := by
  have hlast : (l ++ [v]).getLast? = some v := by simp
  rw [pushHeap, hlast]
  refine (siftUp_perm key _ _ _ (by simp)).trans ?_
  simp

/-! ## Letting a hole sink -/

/-- The smaller of the children of the hole: the left one on its own or if it is strictly
smaller. -/
def smallerChild (l : List α) (hole : ℕ) : Option (ℕ × α) :=
  match l[2 * hole + 1]?, l[2 * hole + 2]? with
  | some a, some b => if key a < key b then some (2 * hole + 1, a) else some (2 * hole + 2, b)
  | some a, none => some (2 * hole + 1, a)
  | none, _ => none

variable {key} in
theorem smallerChild_eq_some {hole c : ℕ} (h : smallerChild key l hole = some (c, a)) :
    l[c]? = some a ∧ c ≠ hole ∧ (c - 1) / 2 = hole ∧
      ∀ i b, i ≠ hole → (i - 1) / 2 = hole → l[i]? = some b → key a ≤ key b := by
  have hcases : ∀ i, i ≠ hole → (i - 1) / 2 = hole → i = 2 * hole + 1 ∨ i = 2 * hole + 2 := by
    intro i hi hpi
    omega
  unfold smallerChild at h
  split at h
  · rename_i x y hx hy
    split at h
    · rename_i hlt
      cases h
      refine ⟨hx, by omega, by omega, fun i b hi hpi hb => ?_⟩
      rcases hcases i hi hpi with rfl | rfl
      · rw [hx] at hb
        exact le_of_eq (congrArg key (Option.some.inj hb))
      · rw [hy] at hb
        exact Option.some.inj hb ▸ le_of_lt hlt
    · rename_i hge
      cases h
      refine ⟨hy, by omega, by omega, fun i b hi hpi hb => ?_⟩
      rcases hcases i hi hpi with rfl | rfl
      · rw [hx] at hb
        exact Option.some.inj hb ▸ le_of_not_gt hge
      · rw [hy] at hb
        exact le_of_eq (congrArg key (Option.some.inj hb))
  · rename_i x hx hy
    cases h
    refine ⟨hx, by omega, by omega, fun i b hi hpi hb => ?_⟩
    rcases hcases i hi hpi with rfl | rfl
    · rw [hx] at hb
      exact le_of_eq (congrArg key (Option.some.inj hb))
    · rw [hy] at hb
      cases hb
  · cases h

variable {key} in
/-- A hole without a smaller child is a leaf. -/
theorem smallerChild_eq_none {hole : ℕ} (h : smallerChild key l hole = none)
    {i : ℕ} {b : α} (hi : i ≠ hole) (hpi : (i - 1) / 2 = hole) : l[i]? ≠ some b := by
  intro hb
  have hlt := (List.getElem?_eq_some_iff.mp hb).1
  have hleft : l[2 * hole + 1]? = some l[2 * hole + 1] := List.getElem?_eq_getElem (by omega)
  unfold smallerChild at h
  rw [hleft] at h
  split at h
  · split at h <;> cases h
  · cases h
  · rename_i h'
    cases h'

/-- The first half of `__adjust_heap`: the smaller child moves up into the hole until the hole
is a leaf. -/
def sink (l : List α) (hole : ℕ) : List α × ℕ :=
  match _h : smallerChild key l hole with
  | some (c, a) => sink (l.set hole a) c
  | none => (l, hole)
termination_by l.length - hole
decreasing_by
  obtain ⟨hc, hne, hp, -⟩ := smallerChild_eq_some _h
  have hlt := (List.getElem?_eq_some_iff.mp hc).1
  rw [List.length_set]
  omega

/-- What `sink` starts from. -/
structure DownReady (l : List α) (hole : ℕ) : Prop where
  lt : hole < l.length
  except : OrderedExcept key l hole
  bridged : Bridged key l hole

variable {key} in
/-- Moving the smaller child up keeps the hole ready. -/
theorem DownReady.move {hole c : ℕ} (h : DownReady key l hole)
    (hc : smallerChild key l hole = some (c, a)) : DownReady key (l.set hole a) c := by
  obtain ⟨ha, hne, hp, hmin⟩ := smallerChild_eq_some hc
  have hheap : IsHeap key (l.set hole a) :=
    UpReady.finish ⟨h.lt, h.except, h.bridged, hmin⟩ fun x h0 hx => h.bridged c x a hne hp hx ha h0
  refine ⟨?_, fun i x b _ _ => hheap i x b, ?_⟩
  · rw [List.length_set]
    exact (List.getElem?_eq_some_iff.mp ha).1
  · intro i x b hi hpi hx hb _
    rw [hp, List.getElem?_set_self h.lt] at hx
    cases hx
    rw [List.getElem?_set_ne (by omega)] at hb
    exact h.except i a b (by omega) (by omega) (hpi ▸ ha) hb

variable {key} in
/-- After `sink` any element may fill the hole from below. -/
theorem DownReady.upReady_sink {hole : ℕ} (h : DownReady key l hole) (v : α) :
    UpReady key (sink key l hole).1 (sink key l hole).2 v := by
  fun_induction sink key l hole with
  | case1 l hole c a hc ih => exact ih (h.move hc)
  | case2 l hole hnone =>
    exact ⟨h.lt, h.except, h.bridged, fun i b hi hpi hb =>
      (smallerChild_eq_none hnone hi hpi hb).elim⟩

theorem sink_perm (l : List α) (hole : ℕ) (v : α) (h : hole < l.length) :
    ((sink key l hole).1.set (sink key l hole).2 v).Perm (l.set hole v) := by
  fun_induction sink key l hole with
  | case1 l hole c a hc ih =>
    obtain ⟨ha, hne, hp, -⟩ := smallerChild_eq_some hc
    refine (ih ?_).trans (set_set_perm_set h (Ne.symm hne) ha)
    rw [List.length_set]
    exact (List.getElem?_eq_some_iff.mp ha).1
  | case2 l hole hnone => exact List.Perm.refl _

/-- `pop_heap`: the front goes behind the heap of the others. -/
def popHeap (l : List α) : List α :=
  match l.head?, l.getLast? with
  | some a, some v =>
    if l.length ≤ 1 then l
    else
      let m := sink key l.dropLast 0
      siftUp key m.1 m.2 v ++ [a]
  | _, _ => l

/-- The hole stays inside the list. -/
theorem sink_lt (l : List α) (hole : ℕ) (h : hole < l.length) :
    (sink key l hole).2 < (sink key l hole).1.length := by
  fun_induction sink key l hole with
  | case1 l hole c a hc ih =>
    apply ih
    rw [List.length_set]
    exact (List.getElem?_eq_some_iff.mp (smallerChild_eq_some hc).1).1
  | case2 l hole hnone => exact h

theorem popHeap_concat (l : List α) (a v : α) :
    popHeap key (a :: (l ++ [v])) =
      siftUp key (sink key (a :: l) 0).1 (sink key (a :: l) 0).2 v ++ [a] := by
  have hdrop : (a :: (l ++ [v])).dropLast = a :: l := by
    rw [← List.cons_append, List.dropLast_concat]
  have hlast : (a :: (l ++ [v])).getLast? = some v := by
    rw [← List.cons_append, List.getLast?_concat]
  rw [popHeap, hlast, hdrop]
  simp

theorem siftUp_sink_perm (l : List α) (a v : α) :
    (siftUp key (sink key (a :: l) 0).1 (sink key (a :: l) 0).2 v).Perm (l ++ [v]) := by
  have hlt := sink_lt key (a :: l) 0 (by simp)
  refine (siftUp_perm key _ _ _ hlt).trans ((sink_perm key (a :: l) 0 v (by simp)).trans ?_)
  exact (List.perm_append_singleton v l).symm

/-- `pop_heap` moves the old front to the back, whether or not the list is a heap. -/
theorem popHeap_perm (a : α) (l : List α) : ∃ m, popHeap key (a :: l) = m ++ [a] ∧ m.Perm l := by
  rcases List.eq_nil_or_concat' l with rfl | ⟨l, v, rfl⟩
  · exact ⟨[], rfl, List.Perm.refl _⟩
  · exact ⟨_, popHeap_concat key l a v, siftUp_sink_perm key l a v⟩

variable {key} in
/-- What `pop_heap` leaves: the old front behind a heap of the other elements. -/
theorem popHeap_eq (h : IsHeap key (a :: l)) :
    ∃ m, popHeap key (a :: l) = m ++ [a] ∧ IsHeap key m ∧ m.Perm l := by
  rcases List.eq_nil_or_concat' l with rfl | ⟨l, v, rfl⟩
  · exact ⟨[], rfl, fun i a b ha => by simp at ha, List.Perm.refl _⟩
  · have hdrop : (a :: (l ++ [v])).dropLast = a :: l := by
      rw [← List.cons_append, List.dropLast_concat]
    have hready : DownReady key (a :: l) 0 := by
      refine ⟨by simp, ?_, fun i a b _ _ _ _ h0 => absurd rfl h0⟩
      intro i x b _ _ hx hb
      exact IsHeap.dropLast key h i x b (hdrop ▸ hx) (hdrop ▸ hb)
    exact ⟨_, popHeap_concat key l a v, (hready.upReady_sink v).isHeap_siftUp,
      siftUp_sink_perm key l a v⟩

example : popHeap (id : ℕ → ℕ) [1, 4, 2, 7, 5, 3] = [2, 4, 3, 7, 5, 1] := by decide +kernel
