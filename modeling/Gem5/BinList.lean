/-
# Sorted lists of stacks

A list kept in order of a key as a list of bins: the members of a bin have the
same key, the keys of the bins increase, and within a bin the newest member
comes first.  `insertBins` and `eraseBins` are the operations on the bins.

The second half is the representation by pointers: `Stack next p l` follows
`next` from `p` along `l`, and `Bins nb ni p bs` follows `nb` from bin to bin,
reading it at the first member of each bin only, and `ni` inside the bins.

* `Binned.pairwise`    — the flattened bins are in order, newest first.
* `Binned.insertBins`, `Binned.eraseBins` — the operations keep that.
* `Stack.congr`, `Bins.congr` — only the pointers that are read matter.
* `walkBins_eq_some`   — following the pointers computes the bins.
-/
import Mathlib

open List

variable {α κ : Type*}

/-! ## Bins -/

/-- The order of the flattened bins: by key, and the newest first among equals. -/
def Earlier [LinearOrder κ] (key : α → κ) (stamp : α → ℕ) (x y : α) : Prop :=
  key x < key y ∨ key x = key y ∧ stamp y < stamp x

structure Binned [LinearOrder κ] (key : α → κ) (stamp : α → ℕ) (bs : List (List α)) : Prop where
  uniform : ∀ b ∈ bs, ∀ x ∈ b, ∀ y ∈ b, key x = key y
  increasing : bs.Pairwise fun b c => ∀ x ∈ b, ∀ y ∈ c, key x < key y
  newest : ∀ b ∈ bs, b.Pairwise fun x y => stamp y < stamp x

/-- Add a member: to the bin of its key, at the top, or in a bin of its own. -/
def insertBins [LinearOrder κ] (key : α → κ) (x : α) : List (List α) → List (List α)
  | [] => [[x]]
  | [] :: bs => insertBins key x bs
  | (y :: l) :: bs =>
    if key x < key y then [x] :: (y :: l) :: bs
    else if key x = key y then (x :: y :: l) :: bs
    else (y :: l) :: insertBins key x bs

/-- Take a member out; a bin that becomes empty goes. -/
def eraseBins [DecidableEq α] (x : α) (bs : List (List α)) : List (List α) :=
  (bs.map fun b => b.filter (· ≠ x)).filter (· ≠ [])

section order

variable [LinearOrder κ] {key key' : α → κ} {stamp stamp' : α → ℕ} {bs : List (List α)} {x : α}

theorem binned_nil : Binned key stamp [] where
  uniform := nofun
  increasing := .nil
  newest := nofun

theorem Binned.pairwise (h : Binned key stamp bs) : bs.flatten.Pairwise (Earlier key stamp) := by
  rw [pairwise_flatten]
  refine ⟨fun b hb => ?_, h.increasing.imp fun hbc x hx y hy => .inl (hbc x hx y hy)⟩
  refine (h.newest b hb).imp_of_mem fun hx hy hlt => .inr ⟨h.uniform b hb _ hx _ hy, hlt⟩

theorem binned_cons_iff {b : List α} :
    Binned key stamp (b :: bs) ↔ (∀ x ∈ b, ∀ y ∈ b, key x = key y) ∧
      b.Pairwise (fun x y => stamp y < stamp x) ∧
      (∀ x ∈ b, ∀ y ∈ bs.flatten, key x < key y) ∧ Binned key stamp bs := by
  constructor
  · intro h
    refine ⟨h.uniform b mem_cons_self, h.newest b mem_cons_self, ?_, ?_⟩
    · intro x hx y hy
      obtain ⟨c, hc, hyc⟩ := mem_flatten.mp hy
      exact rel_of_pairwise_cons h.increasing hc x hx y hyc
    · exact ⟨fun c hc => h.uniform c (.tail _ hc), h.increasing.of_cons,
        fun c hc => h.newest c (.tail _ hc)⟩
  · rintro ⟨heq, hnew, hlt, h⟩
    constructor
    · exact forall_mem_cons.mpr ⟨heq, h.uniform⟩
    · refine pairwise_cons.mpr ⟨fun c hc x hx y hy => ?_, h.increasing⟩
      exact hlt x hx y (mem_flatten.mpr ⟨c, hc, hy⟩)
    · exact forall_mem_cons.mpr ⟨hnew, h.newest⟩

/-- The first bin is the least. -/
theorem Binned.le_of_mem {l : List α} {y z : α} (h : Binned key stamp ((y :: l) :: bs))
    (hz : z ∈ ((y :: l) :: bs).flatten) : key y ≤ key z := by
  rw [flatten_cons, mem_append] at hz
  obtain ⟨heq, -, hlt, -⟩ := binned_cons_iff.mp h
  rcases hz with hz | hz
  · exact (heq y mem_cons_self z hz).le
  · exact (hlt y mem_cons_self z hz).le

/-- Only the keys and stamps of the members matter. -/
theorem Binned.congr (h : Binned key stamp bs)
    (hx : ∀ x ∈ bs.flatten, key' x = key x ∧ stamp' x = stamp x) : Binned key' stamp' bs := by
  have hmem : ∀ b ∈ bs, ∀ x ∈ b, key' x = key x ∧ stamp' x = stamp x :=
    fun b hb x hxb => hx x (mem_flatten.mpr ⟨b, hb, hxb⟩)
  constructor
  · intro b hb x hxb y hyb
    rw [(hmem b hb x hxb).1, (hmem b hb y hyb).1]
    exact h.uniform b hb x hxb y hyb
  · refine h.increasing.imp_of_mem fun hb hc hlt x hxb y hyc => ?_
    rw [(hmem _ hb x hxb).1, (hmem _ hc y hyc).1]
    exact hlt x hxb y hyc
  · intro b hb
    refine (h.newest b hb).imp_of_mem fun hxb hyb hlt => ?_
    rw [(hmem b hb _ hxb).2, (hmem b hb _ hyb).2]
    exact hlt

theorem flatten_insertBins_perm : (insertBins key x bs).flatten.Perm (x :: bs.flatten) := by
  fun_induction insertBins key x bs with
  | case1 => exact .refl _
  | case2 bs ih => exact ih
  | case3 y l bs hlt => exact .refl _
  | case4 y l bs hlt heq => exact .refl _
  | case5 y l bs hlt heq ih => exact (ih.append_left (y :: l)).trans perm_middle

theorem mem_insertBins {y : α} : y ∈ (insertBins key x bs).flatten ↔ y = x ∨ y ∈ bs.flatten := by
  rw [flatten_insertBins_perm.mem_iff, mem_cons]

theorem binned_insertBins (h : Binned key stamp bs) (hx : ∀ y ∈ bs.flatten, stamp y < stamp x) :
    Binned key stamp (insertBins key x bs) := by
  fun_induction insertBins key x bs with
  | case1 =>
    refine binned_cons_iff.mpr ⟨?_, pairwise_singleton .., nofun, binned_nil⟩
    intro y hy z hz
    rw [mem_singleton.mp hy, mem_singleton.mp hz]
  | case2 bs ih => exact ih (binned_cons_iff.mp h).2.2.2 hx
  | case3 y l bs hlt =>
    refine binned_cons_iff.mpr ⟨?_, pairwise_singleton .., ?_, h⟩
    · intro y hy z hz
      rw [mem_singleton.mp hy, mem_singleton.mp hz]
    · intro w hw z hz
      rw [mem_singleton.mp hw]
      exact hlt.trans_le (h.le_of_mem hz)
  | case4 y l bs hlt heq =>
    obtain ⟨huni, hnew, hinc, hbs⟩ := binned_cons_iff.mp h
    have hkey : ∀ z ∈ x :: y :: l, key z = key x := by
      refine forall_mem_cons.mpr ⟨rfl, fun z hz => ?_⟩
      rw [heq, huni z hz y mem_cons_self]
    refine binned_cons_iff.mpr ⟨?_, ?_, ?_, hbs⟩
    · intro z hz w hw
      rw [hkey z hz, hkey w hw]
    · refine pairwise_cons.mpr ⟨fun z hz => hx z ?_, hnew⟩
      exact mem_append_left _ hz
    · intro z hz w hw
      rw [hkey z hz, heq]
      exact hinc y mem_cons_self w hw
  | case5 y l bs hlt heq ih =>
    obtain ⟨huni, hnew, hinc, hbs⟩ := binned_cons_iff.mp h
    refine binned_cons_iff.mpr ⟨huni, hnew, ?_, ih hbs fun z hz => hx z (mem_append_right _ hz)⟩
    intro z hz w hw
    rcases mem_insertBins.mp hw with rfl | hw
    · rw [huni z hz y mem_cons_self]
      exact lt_of_le_of_ne (not_lt.mp hlt) (Ne.symm heq)
    · exact hinc z hz w hw

variable [DecidableEq α]

theorem filter_ne_cons {l : List α} (hx : x ∉ l) : (x :: l).filter (· ≠ x) = l := by
  rw [filter_cons, if_neg (by simp), filter_eq_self]
  intro y hy
  refine decide_eq_true ?_
  rintro rfl
  exact hx hy

theorem flatten_eraseBins (x : α) (bs : List (List α)) :
    (eraseBins x bs).flatten = bs.flatten.filter (· ≠ x) := by
  unfold eraseBins
  rw [flatten_filter_ne_nil, filter_flatten]

theorem binned_eraseBins (h : Binned key stamp bs) : Binned key stamp (eraseBins x bs) := by
  have hmem : ∀ b ∈ eraseBins x bs, ∃ c ∈ bs, b = c.filter (· ≠ x) := by
    intro b hb
    obtain ⟨c, hc, rfl⟩ := mem_map.mp (mem_of_mem_filter hb)
    exact ⟨c, hc, rfl⟩
  constructor
  · intro b hb y hy z hz
    obtain ⟨c, hc, rfl⟩ := hmem b hb
    exact h.uniform c hc y (mem_of_mem_filter hy) z (mem_of_mem_filter hz)
  · refine (pairwise_map.mpr (h.increasing.imp ?_)).filter _
    intro b c hlt y hy z hz
    exact hlt y (mem_of_mem_filter hy) z (mem_of_mem_filter hz)
  · intro b hb
    obtain ⟨c, hc, rfl⟩ := hmem b hb
    exact (h.newest c hc).filter _

/-- The bins without `x` are untouched. -/
theorem eraseBins_cons_of_not_mem {b : List α} (hne : b ≠ []) (hx : x ∉ b) :
    eraseBins x (b :: bs) = b :: eraseBins x bs := by
  have hb : b.filter (· ≠ x) = b := by
    rw [filter_eq_self]
    intro y hy
    exact decide_eq_true fun heq => hx (heq ▸ hy)
  unfold eraseBins
  rw [map_cons, hb, filter_cons, if_pos (decide_eq_true hne)]

theorem eraseBins_of_not_mem (hne : [] ∉ bs) (hx : x ∉ bs.flatten) : eraseBins x bs = bs := by
  induction bs with
  | nil => rfl
  | cons b bs ih =>
    rw [flatten_cons, mem_append, not_or] at hx
    rw [mem_cons, not_or] at hne
    rw [eraseBins_cons_of_not_mem (Ne.symm hne.1) hx.1, ih hne.2 hx.2]

/-- Taking a member out of the first bin. -/
theorem eraseBins_cons (b : List α) (hne : [] ∉ bs) (hx : x ∉ bs.flatten) :
    eraseBins x (b :: bs) =
      if b.filter (· ≠ x) = [] then bs else b.filter (· ≠ x) :: bs := by
  have hbs := eraseBins_of_not_mem hne hx
  unfold eraseBins at hbs ⊢
  rw [map_cons, filter_cons, hbs]
  split <;> rename_i h
  · rw [if_neg (of_decide_eq_true h)]
  · rw [if_pos (not_not.mp (mt decide_eq_true h))]

end order

/-! ## Chains of pointers -/

/-- Following `next` from `p` visits the list and ends. -/
def Stack (next : α → Option α) : Option α → List α → Prop
  | p, [] => p = none
  | p, x :: l => p = some x ∧ Stack next (next x) l

/-- Following `nb` from `p` visits the first members of the bins, and following `ni` from these
the rest of each bin. -/
def Bins (nb ni : α → Option α) : Option α → List (List α) → Prop
  | p, [] => p = none
  | _, [] :: _ => False
  | p, (x :: l) :: bs => p = some x ∧ Stack ni (ni x) l ∧ Bins nb ni (nb x) bs

def walkBin (next : α → Option α) : ℕ → Option α → Option (List α)
  | _, none => some []
  | 0, some _ => none
  | n + 1, some x => (walkBin next n (next x)).map (x :: ·)

/-- Follow the pointers, at most `n` in each direction. -/
def walkBins (nb ni : α → Option α) : ℕ → Option α → Option (List (List α))
  | _, none => some []
  | 0, some _ => none
  | n + 1, some x => do
    let b ← walkBin ni (n + 1) (some x)
    let bs ← walkBins nb ni n (nb x)
    pure (b :: bs)

section chains

variable {next next' nb nb' ni ni' : α → Option α} {p : Option α} {l : List α} {bs : List (List α)}

theorem Stack.congr (h : Stack next p l) (heq : ∀ x ∈ l, next' x = next x) : Stack next' p l := by
  induction l generalizing p with
  | nil => exact h
  | cons x l ih =>
    obtain ⟨rfl, hl⟩ := h
    obtain ⟨hx, heq⟩ := forall_mem_cons.mp heq
    refine ⟨rfl, ?_⟩
    rw [hx]
    exact ih hl heq

theorem Bins.congr (h : Bins nb ni p bs)
    (heq : ∀ x ∈ bs.flatten, nb' x = nb x ∧ ni' x = ni x) : Bins nb' ni' p bs := by
  induction bs generalizing p with
  | nil => exact h
  | cons b bs ih =>
    cases b with
    | nil => exact h.elim
    | cons x l =>
      obtain ⟨rfl, hl, hbs⟩ := h
      have hx := heq x (mem_append_left _ mem_cons_self)
      refine ⟨rfl, ?_, ?_⟩
      · rw [hx.2]
        exact hl.congr fun y hy => (heq y (mem_append_left _ (.tail _ hy))).2
      · rw [hx.1]
        exact ih hbs fun y hy => heq y (mem_append_right _ hy)

theorem walkBin_eq_some {n : ℕ} (h : Stack next p l) (hn : l.length ≤ n) :
    walkBin next n p = some l := by
  induction l generalizing p n with
  | nil =>
    rw [show p = none from h]
    cases n <;> rfl
  | cons x l ih =>
    obtain ⟨rfl, hl⟩ := h
    cases n with
    | zero => exact absurd hn (Nat.not_succ_le_zero _)
    | succ n =>
      unfold walkBin
      rw [ih hl (Nat.le_of_succ_le_succ hn)]
      rfl

theorem Bins.nil_not_mem (h : Bins nb ni p bs) : [] ∉ bs := by
  induction bs generalizing p with
  | nil => exact not_mem_nil
  | cons b bs ih =>
    cases b with
    | nil => exact h.elim
    | cons x l =>
      obtain ⟨-, -, hbs⟩ := h
      rw [mem_cons, not_or]
      exact ⟨(cons_ne_nil x l).symm, ih hbs⟩

theorem walkBins_eq_some {n : ℕ} (h : Bins nb ni p bs) (hn : bs.flatten.length ≤ n) :
    walkBins nb ni n p = some bs := by
  induction bs generalizing p n with
  | nil =>
    rw [show p = none from h]
    cases n <;> rfl
  | cons b bs ih =>
    cases b with
    | nil => exact h.elim
    | cons x l =>
      obtain ⟨rfl, hl, hbs⟩ := h
      rw [flatten_cons, length_append, length_cons] at hn
      cases n with
      | zero => omega
      | succ n =>
        have hb : walkBin ni (n + 1) (some x) = some (x :: l) :=
          walkBin_eq_some ⟨rfl, hl⟩ (by rw [length_cons]; omega)
        unfold walkBins
        rw [hb, ih hbs (by omega)]
        rfl

end chains
