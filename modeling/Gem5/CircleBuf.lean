/-
# The circular buffer

`CircleBuf` (`src/base/circlebuf.cc`) keeps the last bytes written to it in an
array, between the indices `_start` and `_stop`, and counts the unread ones in
`_size`.  It should be a queue that drops its oldest bytes when it overflows.

A write that comes to the end of the array and goes on at its beginning sets
`_start` to `_stop + 1`, whether it has run over unread bytes or not, and if it
has, that is one byte too far; nor does it see that a full buffer is full if the two
indices are equal.  And a read from an empty buffer copies what is in the array and
moves `_start` (`circle_buf_loses_bytes`).  `CircleSystem.Clean` names the
operations for which the buffer is a queue: writes that drop nothing and seldom wrap,
writes of a whole array, and reads of what is there.

The bytes are of any type, and an `int` that overflows is undefined.

* `CircleBuf.Holds`     — the array holds the bytes of the queue, in one piece or two.
* `CircleSystem`        — the buffer next to the queue.
-/
import Mathlib
import Gem5.TransitionSystem

open List

/-! ## The buffer -/

/-- The array with its length, and the indices into it. -/
@[ext]
structure CircleBuf (β : Type) where
  buf : List β
  rollover : Bool := false
  size : ℕ := 0
  start : ℕ := 0
  stop : ℕ := 0
  deriving DecidableEq, Repr

variable {β : Type}

/-- `memcpy` out of the array. -/
def copyFrom (buf : List β) (i len : ℕ) : List β := (buf.drop i).take len

/-- `memcpy` into the array. -/
def copyTo (buf : List β) (i : ℕ) (b : List β) : List β := buf.take i ++ b ++ buf.drop (i + b.length)

/-- The value does not fit in an `int`. -/
def overflowsInt (n : ℕ) : Prop := 2 ^ 31 ≤ n

instance (n : ℕ) : Decidable (overflowsInt n) := inferInstanceAs (Decidable (_ ≤ _))

namespace CircleBuf

variable (c : CircleBuf β)

def buflen : ℕ := c.buf.length

def flush : CircleBuf β :=
  { c with start := 0, stop := 0, size := 0, rollover := false }

/-- The bytes that are copied to the caller, and the buffer afterwards. -/
def read (len : ℕ) : Except Abort (List β × CircleBuf β) :=
  let size := c.size - len
  if c.start < c.stop then
    let len := min len (c.stop - c.start)
    .ok (copyFrom c.buf c.start len, { c with size, start := c.start + len })
  else if c.buflen < c.start then .error .undefined -- a copy of negative length
  else
    let endlen := c.buflen - c.start
    if len < endlen then
      .ok (copyFrom c.buf c.start len, { c with size, start := c.start + len })
    else
      let start := min (len - endlen) c.stop
      .ok (copyFrom c.buf c.start endlen ++ copyFrom c.buf 0 start, { c with size, start })

/-- The bytes behind `_stop`, the rest of them at the beginning of the array. -/
def place (b : List β) (size : ℕ) : CircleBuf β :=
  if c.stop + b.length ≤ c.buflen then
    { c with buf := copyTo c.buf c.stop b, stop := c.stop + b.length, size }
  else
    let endLen := c.buflen - c.stop
    { c with
      buf := copyTo (copyTo c.buf c.stop (b.take endLen)) 0 (b.drop endLen)
      stop := b.length - endLen
      rollover := true
      size }

/-- `_start` after the bytes have been placed. -/
def pushStart (old new : CircleBuf β) : CircleBuf β :=
  if (old.stop < old.start ∧ old.start < new.stop) ∨ (old.start < old.stop ∧ new.stop < old.stop) then
    { new with start := new.stop + 1 }
  else new

def write (b : List β) : Except Abort (CircleBuf β) :=
  if b = [] then .ok c
  else if overflowsInt (c.size + b.length) then .error .undefined
  else
    let size := min (c.size + b.length) c.buflen
    if c.buflen ≤ b.length then
      .ok { buf := b.drop (b.length - c.buflen), start := 0, stop := c.buflen, rollover := true, size }
    else if overflowsInt (c.stop + b.length) then .error .undefined
    else .ok (pushStart c (c.place b size))

/-- The unread bytes are in one piece from `_start` to `_stop`. -/
def straight (x q y : List β) (rollover : Bool) : CircleBuf β where
  buf := x ++ q ++ y
  rollover := rollover
  size := q.length
  start := x.length
  stop := x.length + q.length

/-- The unread bytes go from `_start` to the end of the array, and on from its beginning to
`_stop`. -/
def wrapped (q₁ q₂ m : List β) (rollover : Bool) : CircleBuf β where
  buf := q₂ ++ m ++ q₁
  rollover := rollover
  size := (q₁ ++ q₂).length
  start := q₂.length + m.length
  stop := q₂.length

/-- The unread bytes. -/
inductive Holds : CircleBuf β → List β → Prop
  | straight (x q y : List β) (r : Bool) : Holds (straight x q y r) q
  | wrapped (q₁ q₂ m : List β) (r : Bool) : Holds (wrapped q₁ q₂ m r) (q₁ ++ q₂)

end CircleBuf

/-- A queue of at most `n` bytes drops the oldest ones. -/
def keepLast (n : ℕ) (q : List β) : List β := q.drop (q.length - n)

/-! ## Copying -/

section Copying

variable {x y z b : List β} {i len : ℕ}

theorem copyFrom_append (hi : i = x.length) : copyFrom (x ++ y) i len = y.take len := by
  rw [copyFrom, hi, drop_left]

/-- A copy replaces a part of the array of its own length. -/
theorem copyTo_append (hi : i = x.length) (hb : b.length = y.length) :
    copyTo (x ++ y ++ z) i b = x ++ b ++ z := by
  rw [copyTo, hi, hb, ← length_append, drop_left, append_assoc x y z,
    take_left]

/-- A list of at least the length has a part of the length in front. -/
theorem exists_append_of_length_le (h : len ≤ x.length) :
    ∃ x₁ x₂, x = x₁ ++ x₂ ∧ x₁.length = len :=
  ⟨x.take len, x.drop len, (take_append_drop len x).symm, length_take_of_le h⟩

end Copying

/-! ## The operations -/

namespace CircleBuf

variable {c : CircleBuf β} {q : List β}

theorem buflen_straight (x q y : List β) (r : Bool) :
    (straight x q y r).buflen = x.length + q.length + y.length := by
  simp only [buflen, straight, length_append]

theorem buflen_wrapped (q₁ q₂ m : List β) (r : Bool) :
    (wrapped q₁ q₂ m r).buflen = q₂.length + m.length + q₁.length := by
  simp only [buflen, wrapped, length_append]

/-- From `_start` on there are the older bytes. -/
theorem buflen_sub_start_wrapped (q₁ q₂ m : List β) (r : Bool) :
    (wrapped q₁ q₂ m r).buflen - (wrapped q₁ q₂ m r).start = q₁.length ∧
      ¬ (wrapped q₁ q₂ m r).buflen < (wrapped q₁ q₂ m r).start ∧
      ¬ (wrapped q₁ q₂ m r).start < (wrapped q₁ q₂ m r).stop := by
  rw [buflen_wrapped]
  simp only [wrapped]
  omega

theorem Holds.size_eq (h : c.Holds q) : c.size = q.length := by
  obtain ⟨x, y, r⟩ | ⟨q₁, q₂, m, r⟩ := h
  · rfl
  · rfl

theorem read_straight (x y : List β) (r : Bool) (len : ℕ) (hq : q ≠ []) :
    (straight x q y r).read len = .ok (q.take len, straight (x ++ q.take len) (q.drop len) y r) := by
  have hlt : (straight x q y r).start < (straight x q y r).stop :=
    Nat.lt_add_of_pos_right (length_pos_iff.mpr hq)
  rw [CircleBuf.read, if_pos hlt]
  refine congrArg Except.ok (Prod.ext ?_ (CircleBuf.ext ?_ rfl ?_ ?_ ?_))
  · simp only [straight, Nat.add_sub_cancel_left]
    rw [append_assoc, copyFrom_append rfl, take_append_of_le_length (Nat.min_le_right ..),
      take_eq_take_iff]
    omega
  · simp only [straight]
    rw [append_assoc x (q.take len), take_append_drop]
  · simp only [straight, length_drop]
  · simp only [straight, Nat.add_sub_cancel_left, length_append, length_take]
  · simp only [straight, length_append, length_take, length_drop]
    omega

theorem read_nothing (x y : List β) (r : Bool) (hy : y ≠ []) :
    (straight x [] y r).read 0 = .ok ([], straight x [] y r) := by
  have hpos := length_pos_iff.mpr hy
  have hend : 0 < (straight x [] y r).buflen - (straight x [] y r).start := by
    simp only [buflen, straight, length_append, length_nil]
    omega
  have hlt : ¬ (straight x [] y r).start < (straight x [] y r).stop := lt_irrefl _
  rw [CircleBuf.read, if_neg hlt, if_neg (by omega)]
  rw [if_pos hend]
  rfl

theorem read_wrapped_lt (q₁ q₂ m : List β) (r : Bool) {len : ℕ} (hlen : len < q₁.length) :
    (wrapped q₁ q₂ m r).read len =
      .ok ((q₁ ++ q₂).take len, wrapped (q₁.drop len) q₂ (m ++ q₁.take len) r) := by
  obtain ⟨hend, hbuflen, hlt⟩ := buflen_sub_start_wrapped q₁ q₂ m r
  rw [CircleBuf.read, if_neg hlt, if_neg hbuflen]
  rw [hend, if_pos hlen]
  refine congrArg Except.ok (Prod.ext ?_ (CircleBuf.ext ?_ rfl ?_ ?_ rfl))
  · simp only [wrapped]
    rw [copyFrom_append length_append.symm, take_append_of_le_length hlen.le]
  · simp only [wrapped]
    rw [append_assoc, append_assoc, append_assoc m, take_append_drop]
  · simp only [wrapped, length_append, length_drop]
    omega
  · simp only [wrapped, length_append, length_take, min_eq_left hlen.le, add_assoc]

theorem read_wrapped_ge (q₁ q₂ m : List β) (r : Bool) {len : ℕ} (hlen : q₁.length ≤ len) :
    (wrapped q₁ q₂ m r).read len = .ok ((q₁ ++ q₂).take len,
      straight (q₂.take (len - q₁.length)) (q₂.drop (len - q₁.length)) (m ++ q₁) r) := by
  obtain ⟨hend, hbuflen, hlt⟩ := buflen_sub_start_wrapped q₁ q₂ m r
  rw [CircleBuf.read, if_neg hlt, if_neg hbuflen]
  rw [hend, if_neg (by omega)]
  refine congrArg Except.ok (Prod.ext ?_ (CircleBuf.ext ?_ rfl ?_ ?_ ?_))
  · simp only [wrapped]
    rw [copyFrom_append length_append.symm, take_length, take_append,
      take_of_length_le hlen, copyFrom, drop_zero, append_assoc,
      take_append_of_le_length (Nat.min_le_right ..)]
    congr 1
    rw [take_eq_take_iff]
    omega
  · simp only [wrapped, straight]
    rw [take_append_drop, append_assoc]
  · simp only [wrapped, straight, length_append, length_drop]
    omega
  · simp only [wrapped, straight, length_take]
  · simp only [wrapped, straight, length_take, length_drop]
    omega

/-- A read returns the oldest bytes, unless the buffer is empty. -/
theorem Holds.read (h : c.Holds q) {len : ℕ}
    (hlen : 0 < c.size ∨ len = 0 ∧ c.start < c.buflen) :
    ∃ c', c.read len = .ok (q.take len, c') ∧ c'.Holds (q.drop len) ∧ c'.buflen = c.buflen := by
  obtain ⟨x, _, y, r⟩ | ⟨q₁, q₂, m, r⟩ := h
  · by_cases hq : q = []
    · subst hq
      rcases hlen with hlen | ⟨rfl, hlt⟩
      · exact absurd hlen (lt_irrefl 0)
      · have hy : y ≠ [] := by
          rintro rfl
          rw [buflen_straight] at hlt
          exact absurd hlt (lt_irrefl _)
        exact ⟨_, read_nothing x y r hy, .straight .., rfl⟩
    · refine ⟨_, read_straight x y r len hq, .straight .., ?_⟩
      simp only [buflen_straight, length_append, length_take, length_drop]
      omega
  · by_cases hlt : len < q₁.length
    · refine ⟨_, read_wrapped_lt q₁ q₂ m r hlt, ?_, ?_⟩
      · rw [drop_append_of_le_length hlt.le]
        exact .wrapped ..
      · simp only [buflen_wrapped, length_append, length_take, length_drop]
        omega
    · rw [not_lt] at hlt
      refine ⟨_, read_wrapped_ge q₁ q₂ m r hlt, ?_, ?_⟩
      · rw [drop_append, drop_of_length_le hlt]
        exact .straight ..
      · simp only [buflen_wrapped, buflen_straight, length_append, length_take,
          length_drop]
        omega

/-- A write that is shorter than the array. -/
theorem write_eq {b : List β} (hb : b ≠ []) (hlt : b.length < c.buflen)
    (hfit : c.size + b.length ≤ c.buflen) (hint : ¬ overflowsInt (c.size + b.length))
    (hint' : ¬ overflowsInt (c.stop + b.length)) :
    c.write b = .ok (pushStart c (c.place b (c.size + b.length))) := by
  rw [CircleBuf.write, if_neg hb, if_neg hint]
  rw [if_neg (by omega), if_neg hint', min_eq_left hfit]

/-- The bytes fit behind `_stop`. -/
theorem place_straight (x q y₁ y₂ b : List β) (r : Bool) (hb : b.length = y₁.length) :
    pushStart (straight x q (y₁ ++ y₂) r)
      ((straight x q (y₁ ++ y₂) r).place b (q.length + b.length)) = straight x (q ++ b) y₂ r := by
  have hfit : (straight x q (y₁ ++ y₂) r).stop + b.length ≤ (straight x q (y₁ ++ y₂) r).buflen := by
    rw [buflen_straight, length_append]
    simp only [straight]
    omega
  rw [place, if_pos hfit, pushStart, if_neg]
  · refine CircleBuf.ext ?_ rfl ?_ rfl ?_
    · simp only [straight]
      rw [← append_assoc, copyTo_append length_append.symm hb, append_assoc x]
    · simp only [straight, length_append]
    · simp only [straight, length_append, add_assoc]
  · simp only [straight]
    omega

/-- The bytes go on at the beginning of the array. -/
theorem place_straight_wrap (x₁ x₂ q y b₁ b₂ : List β) (r : Bool) (hb₁ : b₁.length = y.length)
    (hb₂ : b₂.length = x₁.length) (hne : b₂ ≠ []) (hx : q = [] ∨ x₂.length = 1) :
    pushStart (straight (x₁ ++ x₂) q y r)
      ((straight (x₁ ++ x₂) q y r).place (b₁ ++ b₂) (q.length + (b₁ ++ b₂).length)) =
        wrapped (q ++ b₁) b₂ x₂ true := by
  have hpos := length_pos_iff.mpr hne
  have hfit : ¬ (straight (x₁ ++ x₂) q y r).stop + (b₁ ++ b₂).length ≤
      (straight (x₁ ++ x₂) q y r).buflen := by
    rw [buflen_straight]
    simp only [straight, length_append]
    omega
  have hend : (straight (x₁ ++ x₂) q y r).buflen - (straight (x₁ ++ x₂) q y r).stop =
      b₁.length := by
    rw [buflen_straight]
    simp only [straight]
    omega
  have hbuf : copyTo (copyTo (x₁ ++ x₂ ++ q ++ y) ((x₁ ++ x₂).length + q.length) b₁) 0 b₂ =
      b₂ ++ x₂ ++ (q ++ b₁) := by
    have h₁ := copyTo_append (x := x₁ ++ x₂ ++ q) (y := y) (z := []) (b := b₁)
      length_append.symm hb₁
    have h₂ := copyTo_append (x := []) (y := x₁) (z := x₂ ++ (q ++ b₁)) (b := b₂) rfl hb₂
    simp only [append_nil, nil_append, append_assoc] at h₁ h₂ ⊢
    rw [h₁]
    exact h₂
  rw [place, if_neg hfit]
  simp only
  rw [hend, take_left, drop_left, pushStart]
  have hlen : (b₁ ++ b₂).length - b₁.length = b₂.length := by
    rw [length_append, Nat.add_sub_cancel_left]
  simp only [hlen]
  by_cases hq : q = []
  · subst hq
    rw [if_neg]
    · refine CircleBuf.ext hbuf rfl ?_ ?_ rfl
      · simp only [wrapped, nil_append, length_nil, zero_add]
      · simp only [straight, wrapped, length_append, hb₂]
    · simp only [straight, length_nil]
      omega
  · have hx₂ := hx.resolve_left hq
    have hqpos := length_pos_iff.mpr hq
    rw [if_pos]
    · refine CircleBuf.ext hbuf rfl ?_ ?_ rfl
      · simp only [wrapped, length_append, add_assoc]
      · simp only [wrapped, hx₂]
    · simp only [straight, length_append]
      omega

/-- The bytes fit between the two parts. -/
theorem place_wrapped (q₁ q₂ m₁ m₂ b : List β) (r : Bool) (hb : b.length = m₁.length) :
    pushStart (wrapped q₁ q₂ (m₁ ++ m₂) r)
      ((wrapped q₁ q₂ (m₁ ++ m₂) r).place b ((q₁ ++ q₂).length + b.length)) =
        wrapped q₁ (q₂ ++ b) m₂ r := by
  have hfit : (wrapped q₁ q₂ (m₁ ++ m₂) r).stop + b.length ≤
      (wrapped q₁ q₂ (m₁ ++ m₂) r).buflen := by
    rw [buflen_wrapped, length_append]
    simp only [wrapped]
    omega
  rw [place, if_pos hfit, pushStart, if_neg]
  · refine CircleBuf.ext ?_ rfl ?_ ?_ ?_
    · simp only [wrapped]
      rw [← append_assoc, append_assoc _ m₂, copyTo_append rfl hb, append_assoc _ m₂]
    · simp only [wrapped, length_append, add_assoc]
    · simp only [wrapped, length_append, hb, add_assoc]
    · simp only [wrapped, length_append]
  · simp only [wrapped, length_append]
    omega

/-- When a write keeps the buffer a queue: it fills the whole array, or it drops nothing and, if
it has to go on at the beginning of the array, the buffer is empty or one byte stays free. -/
def Fits (c : CircleBuf β) (len : ℕ) : Prop :=
  ¬ overflowsInt (c.size + len) ∧ (c.buflen ≤ len ∨
    (¬ overflowsInt (c.stop + len) ∧ c.size + len ≤ c.buflen ∧
      (c.start < c.stop → c.stop + len ≤ c.buflen ∨ c.size + len + 1 = c.buflen)))

instance (c : CircleBuf β) (len : ℕ) : Decidable (c.Fits len) := by
  unfold Fits
  infer_instance

theorem keepLast_of_length_le {n : ℕ} (h : q.length ≤ n) : keepLast n q = q := by
  rw [keepLast, Nat.sub_eq_zero_of_le h, drop_zero]

/-- A write of a whole array leaves its last bytes only. -/
theorem keepLast_append {n : ℕ} {b : List β} (h : n ≤ b.length) :
    keepLast n (q ++ b) = b.drop (b.length - n) := by
  rw [keepLast, drop_append, drop_of_length_le, nil_append]
  · congr 1
    rw [length_append]
    omega
  · rw [length_append]
    omega

/-- A write that fits appends its bytes, and drops the oldest ones. -/
theorem Holds.write (h : c.Holds q) {b : List β} (hfits : b = [] ∨ c.Fits b.length)
    (hq : q.length ≤ c.buflen) :
    ∃ c', c.write b = .ok c' ∧ c'.Holds (keepLast c.buflen (q ++ b)) ∧ c'.buflen = c.buflen := by
  by_cases hb : b = []
  · subst hb
    refine ⟨c, if_pos rfl, ?_, rfl⟩
    rw [append_nil, keepLast_of_length_le hq]
    exact h
  obtain ⟨hint, hfits⟩ := hfits.resolve_left hb
  by_cases hall : c.buflen ≤ b.length
  · -- only the last bytes of this write are left
    refine ⟨CircleBuf.straight [] (b.drop (b.length - c.buflen)) [] true, ?_, ?_, ?_⟩
    · rw [CircleBuf.write, if_neg hb, if_neg hint]
      rw [if_pos hall]
      refine congrArg Except.ok (CircleBuf.ext ?_ rfl ?_ rfl ?_)
      · simp only [CircleBuf.straight, nil_append, append_nil]
      · simp only [CircleBuf.straight, length_drop]
        omega
      · simp only [CircleBuf.straight, length_nil, length_drop]
        omega
    · rw [keepLast_append hall]
      exact .straight ..
    · rw [buflen_straight, length_drop, length_nil]
      omega
  obtain ⟨hint', hfit, hwrap⟩ := hfits.resolve_left hall
  have hkeep : keepLast c.buflen (q ++ b) = q ++ b := by
    apply keepLast_of_length_le
    rw [length_append, ← h.size_eq]
    exact hfit
  rw [hkeep]
  refine ⟨_, write_eq hb (Nat.lt_of_not_le hall) hfit hint hint', ?_⟩
  obtain ⟨x, _, y, r⟩ | ⟨q₁, q₂, m, r⟩ := h
  · simp only [buflen_straight] at hfit hwrap
    simp only [CircleBuf.straight] at hfit hwrap
    by_cases hbehind : b.length ≤ y.length
    · obtain ⟨y₁, y₂, rfl, hy₁⟩ := exists_append_of_length_le hbehind
      have hplace := place_straight x q y₁ y₂ b r hy₁.symm
      refine hplace ▸ ⟨.straight .., ?_⟩
      simp only [buflen_straight, length_append]
      omega
    · -- the bytes that are left go to the beginning, where the old ones have been read
      obtain ⟨b₁, b₂, rfl, hb₁⟩ := exists_append_of_length_le (Nat.le_of_not_le hbehind)
      rw [length_append] at hfit hwrap hbehind
      obtain ⟨x₁, x₂, rfl, hx₁⟩ : ∃ x₁ x₂, x = x₁ ++ x₂ ∧ x₁.length = b₂.length :=
        exists_append_of_length_le (by omega)
      rw [length_append] at hfit hwrap
      have hne : b₂ ≠ [] := by
        apply length_pos_iff.mp
        omega
      have hx₂ : q = [] ∨ x₂.length = 1 := by
        by_cases hq : q = []
        · exact .inl hq
        · have hqpos := length_pos_iff.mpr hq
          rcases hwrap (by omega) with hle | hle
          · omega
          · omega
      have hplace := place_straight_wrap x₁ x₂ q y b₁ b₂ r hb₁ hx₁.symm hne hx₂
      refine hplace ▸ ⟨?_, ?_⟩
      · rw [← append_assoc]
        exact .wrapped ..
      · simp only [buflen_straight, buflen_wrapped, length_append]
        omega
  · simp only [buflen_wrapped] at hfit
    simp only [CircleBuf.wrapped, length_append] at hfit
    obtain ⟨m₁, m₂, rfl, hm₁⟩ : ∃ m₁ m₂, m = m₁ ++ m₂ ∧ m₁.length = b.length :=
      exists_append_of_length_le (by omega)
    have hplace := place_wrapped q₁ q₂ m₁ m₂ b r hm₁.symm
    refine hplace ▸ ⟨?_, ?_⟩
    · rw [append_assoc]
      exact .wrapped ..
    · simp only [buflen_wrapped, length_append]
      omega

end CircleBuf

/-! ## The buffer as a queue -/

/-- The buffer, next to the queue of its unread bytes. -/
structure CircleSystem (β : Type) where
  buf : CircleBuf β
  queue : List β := []

inductive CircleOp (β : Type)
  | write (b : List β)
  | read (len : ℕ)
  | flush

namespace CircleSystem

/-- What the queue does: it keeps the last `n` bytes. -/
def queueAfter (n : ℕ) (q : List β) : CircleOp β → List β
  | .write b => keepLast n (q ++ b)
  | .read len => q.drop len
  | .flush => []

def bufAfter (c : CircleBuf β) : CircleOp β → Except Abort (CircleBuf β)
  | .write b => c.write b
  | .read len => (c.read len).map Prod.snd
  | .flush => .ok c.flush

variable (s : CircleSystem β)

def step (op : CircleOp β) : Except Abort (CircleSystem β) :=
  (bufAfter s.buf op).map fun buf => { buf, queue := queueAfter s.buf.buflen s.queue op }

/-- A write fits, and a read does not find the buffer empty. -/
def Clean : CircleOp β → Prop
  | .write b => b = [] ∨ s.buf.Fits b.length
  | .read len => 0 < s.buf.size ∨ len = 0 ∧ s.buf.start < s.buf.buflen
  | .flush => True

instance [DecidableEq β] (s : CircleSystem β) : (op : CircleOp β) → Decidable (s.Clean op)
  | .write b => inferInstanceAs (Decidable (b = [] ∨ s.buf.Fits b.length))
  | .read len => inferInstanceAs (Decidable (0 < s.buf.size ∨ len = 0 ∧ s.buf.start < s.buf.buflen))
  | .flush => inferInstanceAs (Decidable True)

/-- The size is that of the queue, and a read returns its oldest bytes. -/
def BoundedFifo : Prop :=
  s.buf.size = s.queue.length ∧
    ∀ len, s.Clean (.read len) → ∃ c, s.buf.read len = .ok (s.queue.take len, c)

/-- The buffer holds the queue. -/
structure Faithful (n : ℕ) (s : CircleSystem β) : Prop where
  buflen_eq : s.buf.buflen = n
  holds : s.buf.Holds s.queue
  length_le : s.queue.length ≤ n

variable {n : ℕ} {s t : CircleSystem β}

/-- The queue never has more than `n` bytes. -/
theorem length_queueAfter_le {q : List β} (hq : q.length ≤ n) (op : CircleOp β) :
    (queueAfter n q op).length ≤ n := by
  match op with
  | .write b =>
    rw [queueAfter, keepLast, length_drop]
    omega
  | .read len =>
    rw [queueAfter, length_drop]
    omega
  | .flush => exact Nat.zero_le n

/-- Every clean operation returns, and the buffer goes on to hold the queue. -/
theorem Faithful.step (h : s.Faithful n) {op : CircleOp β} (hop : s.Clean op) :
    ∃ t, s.step op = .ok t ∧ t.Faithful n := by
  have hafter : ∃ c, bufAfter s.buf op = .ok c ∧ c.Holds (queueAfter s.buf.buflen s.queue op) ∧
      c.buflen = s.buf.buflen := by
    match op with
    | .write b => exact h.holds.write hop (h.length_le.trans_eq h.buflen_eq.symm)
    | .read len =>
      obtain ⟨c, hc, hholds, hlen⟩ := h.holds.read hop
      refine ⟨c, ?_, hholds, hlen⟩
      rw [bufAfter, hc]
      rfl
    | .flush =>
      refine ⟨s.buf.flush, rfl, ?_, rfl⟩
      exact .straight [] [] s.buf.buf false
  obtain ⟨c, hc, hholds, hlen⟩ := hafter
  refine ⟨⟨c, queueAfter s.buf.buflen s.queue op⟩, ?_, hlen.trans h.buflen_eq, hholds, ?_⟩
  · rw [CircleSystem.step, hc]
    rfl
  · rw [h.buflen_eq]
    exact length_queueAfter_le h.length_le op

theorem Faithful.boundedFifo (h : s.Faithful n) : s.BoundedFifo := by
  refine ⟨h.holds.size_eq, ?_⟩
  intro len hlen
  obtain ⟨c, hc, -, -⟩ := h.holds.read hlen
  exact ⟨c, hc⟩

/-- **The circular buffer is a bounded queue** in every run of clean operations: each of them
returns, the size is that of the queue of the last bytes, and a read returns its oldest ones. -/
theorem circle_buf_bounded_fifo (buf : List β) {ops : List (CircleOp β)}
    (h : Runs (Within step Clean) { buf := { buf } } ops s) :
    s.BoundedFifo ∧ ∀ op, s.Clean op → ∃ t, s.step op = .ok t ∧ t.BoundedFifo := by
  have hs : s.Faithful buf.length := by
    refine h.invariant_of_progress (P := Faithful buf.length) ?_ ⟨rfl, ?_, Nat.zero_le _⟩
    · intro s op hs hop
      exact hs.step hop
    · exact .straight [] [] buf false
  refine ⟨hs.boundedFifo, ?_⟩
  intro op hop
  obtain ⟨t, hstep, ht⟩ := hs.step hop
  exact ⟨t, hstep, ht.boundedFifo⟩

/-- Five bytes go through an array of four: one byte stays free when the second write goes on at
the beginning. -/
theorem circle_buf_bounded_fifo_wrap :
    ∃ s, Runs (Within step Clean) { buf := { buf := [0, 0, 0, 0] } }
        [.write [1, 2, 3], .read 2, .write [4, 5]] s ∧
      s.queue = [3, 4, 5] ∧ s.BoundedFifo := by
  refine exists_runs_and_of_execWithin (by decide +kernel) ?_
  intro s hrun _
  exact (circle_buf_bounded_fifo [0, 0, 0, 0] hrun).1

/-- A write runs over the oldest of three bytes in an array of four: the size says four, a read of
four bytes returns three.  And two bytes of an empty buffer are read before two are written: the
next read returns what was in the array. -/
theorem circle_buf_loses_bytes :
    (∃ s, Runs (Within step Anytime) { buf := { buf := [0, 0, 0, 0] } }
        [.write [1, 2, 3], .write [4, 5]] s ∧
      (s.queue = [2, 3, 4, 5] ∧ s.buf.size = 4 ∧ (s.buf.read 4).map Prod.fst = .ok [3, 4, 5])) ∧
    ∃ s, Runs (Within step Anytime) { buf := { buf := [0, 0, 0, 0] } }
        [.read 2, .write [1, 2]] s ∧
      (s.queue = [1, 2] ∧ s.buf.size = 2 ∧ (s.buf.read 2).map Prod.fst = .ok [0, 0]) := by
  constructor
  · exact exists_runs_of_execWithin (by decide +kernel)
  · exact exists_runs_of_execWithin (by decide +kernel)

end CircleSystem
