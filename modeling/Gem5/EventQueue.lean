/-
# The event queue

`EventQueue` (`src/sim/eventq.cc`, `eventq.hh`, `eventq_impl.hh`): a list of
stacks.  Events with the same tick and priority are in one stack (a bin), linked
by `nextInBin`; the tops of the bins are linked by `nextBin`.  Below the top of a
bin `nextBin` is stale.

The two links of an event are kept apart from its other fields, in a function
each.  Only one queue, outside parallel mode.  Each insertion stamps its event,
which is how "newest first" is stated, and the number of insertions bounds the
loops, which run on fuel: running out of it (`endless`) is a result of its own,
and so is the panic "event not found!" (`notFound`).

* `EventQueue.insert`, `remove`, `serviceOne` — the queue.
* `EventQueue.walk`     — what following the pointers visits.
* `EventQueue.Linked`   — the pointers represent a sorted list of bins.
* `EventQueue.Sound`    — the invariant between calls.
-/
import Mathlib
import Gem5.TransitionSystem
import Gem5.BinList

open Function

/-! ## Events -/

/-- The fields of an event besides its links; `queue` is whether it belongs to this queue. -/
structure Event where
  when : ℕ := 0
  priority : ℤ := 0
  squashed : Bool := false
  scheduled : Bool := false
  autoDelete : Bool := false
  isExitEvent : Bool := false
  isMainQueue : Bool := false
  initialized : Bool := true
  queue : Bool := false
  deriving DecidableEq, Repr

namespace Event

def lt (l r : Event) : Bool :=
  l.when < r.when || (l.when == r.when && l.priority < r.priority)

def le (l r : Event) : Bool :=
  l.when < r.when || (l.when == r.when && l.priority ≤ r.priority)

def eq (l r : Event) : Bool := l.when == r.when && l.priority == r.priority

def ne (l r : Event) : Bool := l.when != r.when || l.priority != r.priority

/-- The destructor: `flags = 0`. -/
def delete (e : Event) : Event :=
  { e with
    squashed := false, scheduled := false, autoDelete := false, isExitEvent := false
    isMainQueue := false, initialized := false }

/-- What the four comparisons compare. -/
def key (e : Event) : ℕ ×ₗ ℤ := toLex (e.when, e.priority)

variable {l r : Event}

theorem lt_iff : l.lt r = true ↔ l.key < r.key := by
  simp [lt, key, Prod.Lex.toLex_lt_toLex]

theorem le_iff : l.le r = true ↔ l.key ≤ r.key := by
  simp [le, key, Prod.Lex.toLex_le_toLex]

theorem eq_iff : l.eq r = true ↔ l.key = r.key := by
  simp [eq, key]

theorem ne_iff : l.ne r = true ↔ l.key ≠ r.key := by
  simp [ne, key]
  tauto

theorem when_le_of_key_le (h : l.key ≤ r.key) : l.when ≤ r.when := by
  rcases Prod.Lex.toLex_le_toLex.mp h with h | h
  · exact h.le
  · exact h.1.le

end Event

/-! ## The queue -/

/-- Why a call does not return. -/
inductive EventFault
  | assertion
  | undefined
  | notFound
  | endless
  deriving DecidableEq, Repr

structure EventQueue (ι : Type) where
  head : Option ι := none
  nextBin : ι → Option ι := fun _ => none
  nextInBin : ι → Option ι := fun _ => none
  events : ι → Event
  curTick : ℕ := 0
  /-- When each event was last inserted, and the number of insertions so far. -/
  stamps : ι → ℕ := fun _ => 0
  insertions : ℕ := 0

namespace EventQueue

variable {ι : Type} [DecidableEq ι]

variable (q : EventQueue ι)

/-- Change the fields of one event. -/
def modify (event : ι) (f : Event → Event) : EventQueue ι :=
  { q with events := Function.update q.events event (f (q.events event)) }

/-- `Event::insertBefore`; it returns `event`. -/
def insertBefore (event : ι) (curr : Option ι) : EventQueue ι :=
  match curr with
  | none =>
    { q with
      nextBin := Function.update q.nextBin event none
      nextInBin := Function.update q.nextInBin event none }
  | some c =>
    if (q.events event).lt (q.events c) then
      { q with
        nextBin := Function.update q.nextBin event (some c)
        nextInBin := Function.update q.nextInBin event none }
    else
      { q with
        nextBin := Function.update q.nextBin event (q.nextBin c)
        nextInBin := Function.update q.nextInBin event (some c) }

/-- The loop of `insert` and `remove` over the bins: `prev` and `curr` when it stops. -/
def findBin (q : EventQueue ι) (event : ι) :
    ℕ → ι → Option ι → Except EventFault (ι × Option ι)
  | 0, _, _ => .error .endless
  | _ + 1, prev, none => .ok (prev, none)
  | n + 1, prev, some curr =>
    if (q.events curr).lt (q.events event) then q.findBin event n curr (q.nextBin curr)
    else .ok (prev, some curr)

/-- `insert(event)`, and the stamp. -/
def insert (event : ι) : Except EventFault (EventQueue ι) := do
  let linked ← match q.head with
    | none => .ok { q.insertBefore event none with head := some event }
    | some head =>
      if (q.events event).le (q.events head) then
        .ok { q.insertBefore event (some head) with head := some event }
      else do
        let (prev, curr) ← q.findBin event q.insertions head (q.nextBin head)
        let inserted := q.insertBefore event curr
        .ok { inserted with nextBin := Function.update inserted.nextBin prev (some event) }
  pure { linked with
    stamps := Function.update q.stamps event q.insertions
    insertions := q.insertions + 1 }

/-- The loop of `removeItem`: the event whose `nextInBin` is `event`. -/
def findInBin (q : EventQueue ι) (event : ι) : ℕ → ι → Option ι → Except EventFault ι
  | 0, _, _ => .error .endless
  | n + 1, curr, next =>
    if next = some event then .ok curr
    else match next with
      | none => .error .notFound
      | some next => q.findInBin event n next (q.nextInBin next)

/-- `Event::removeItem`: the new top, or the next bin. -/
def removeItem (event top : ι) :
    Except EventFault (Option ι × EventQueue ι) :=
  if event = top then
    match q.nextInBin top with
    | none => .ok (q.nextBin top, q)
    | some next =>
      .ok (some next, { q with nextBin := Function.update q.nextBin next (q.nextBin top) })
  else do
    let curr ← q.findInBin event q.insertions top (q.nextInBin top)
    pure (some top, { q with nextInBin := Function.update q.nextInBin curr (q.nextInBin event) })

def remove (event : ι) : Except EventFault (EventQueue ι) :=
  match q.head with
  | none => .error .notFound
  | some head =>
    if (q.events event).queue = false then .error .assertion
    else if (q.events head).eq (q.events event) then do
      let r ← q.removeItem event head
      pure { r.2 with head := r.1 }
    else do
      let found ← q.findBin event q.insertions head (q.nextBin head)
      match found.2 with
      | none => .error .notFound
      | some curr =>
        if (q.events curr).ne (q.events event) then .error .notFound
        else do
          let r ← q.removeItem event curr
          pure { r.2 with nextBin := Function.update r.2.nextBin found.1 r.1 }

/-! ## The calls -/

def schedule (event : ι) (when : ℕ) : Except EventFault (EventQueue ι) :=
  if q.curTick ≤ when ∧ (q.events event).scheduled = false ∧
      (q.events event).initialized = true then do
    let q ← (q.modify event fun e => { e with when, queue := true }).insert event
    pure (q.modify event fun e => { e with scheduled := true })
  else .error .assertion

def deschedule (event : ι) : Except EventFault (EventQueue ι) :=
  if (q.events event).scheduled = true ∧ (q.events event).initialized = true then do
    let removed ← q.remove event
    let cleared := removed.modify event fun e => { e with squashed := false, scheduled := false }
    pure (if (q.events event).autoDelete then cleared.modify event Event.delete else cleared)
  else .error .assertion

/-- `if (event->scheduled()) remove(event)`. -/
def removeScheduled (event : ι) : Except EventFault (EventQueue ι) :=
  if (q.events event).scheduled then q.remove event else .ok q

def reschedule (event : ι) (when : ℕ) (always : Bool) :
    Except EventFault (EventQueue ι) :=
  if q.curTick ≤ when ∧ (always || (q.events event).scheduled) = true ∧
      (q.events event).initialized = true then do
    let q ← q.removeScheduled event
    let q ← (q.modify event fun e => { e with when, queue := true }).insert event
    pure (q.modify event fun e => { e with squashed := false, scheduled := true })
  else .error .assertion

def squash (event : ι) : EventQueue ι :=
  q.modify event fun e => { e with squashed := true }

/-- What a handler may do with the queue. -/
inductive Call (ι : Type)
  | schedule (event : ι) (when : ℕ)
  | deschedule (event : ι)
  | reschedule (event : ι) (when : ℕ) (always : Bool)
  | squash (event : ι)

def call : Call ι → Except EventFault (EventQueue ι)
  | .schedule event when => q.schedule event when
  | .deschedule event => q.deschedule event
  | .reschedule event when always => q.reschedule event when always
  | .squash event => .ok (q.squash event)

/-- The first half of `serviceOne`: the event at the head leaves the queue. -/
def popHead : Except EventFault (ι × EventQueue ι) :=
  match q.head with
  | none => .error .undefined
  | some event =>
    let q := q.modify event fun e => { e with scheduled := false }
    match q.nextInBin event with
    | some next => .ok (event, { q with
        nextBin := Function.update q.nextBin next (q.nextBin event)
        head := some next })
    | none => .ok (event, { q with head := q.nextBin event })

/-- The end of `serviceOne`. -/
def autoDelete (q : EventQueue ι) (event : ι) : EventQueue ι :=
  if (q.events event).autoDelete && !(q.events event).scheduled then q.modify event Event.delete
  else q

/-- `serviceOne()`, where `process()` makes the calls of `handler`.  If the handler has the event
deleted, its flags are gone. -/
def serviceOne (handler : List (Call ι)) :
    Except EventFault (EventQueue ι) := do
  let (event, q) ← q.popHead
  if (q.events event).squashed then
    pure ((q.modify event fun e => { e with squashed := false }).autoDelete event)
  else
    let q ← handler.foldlM call { q with curTick := (q.events event).when }
    let e := q.events event
    if e.initialized = false then .error .undefined
    else if e.isExitEvent then
      if e.autoDelete && e.isMainQueue then .error .assertion else pure q
    else pure (q.autoDelete event)

inductive Op (ι : Type)
  | call (c : Call ι)
  | serviceOne (handler : List (Call ι))

def step : Op ι → Except EventFault (EventQueue ι)
  | .call c => q.call c
  | .serviceOne handler => q.serviceOne handler

/-- What following `nextBin` along the tops and `nextInBin` inside the bins visits. -/
def walk : Option (List ι) :=
  (walkBins q.nextBin q.nextInBin q.insertions q.head).map List.flatten

def key (q : EventQueue ι) (event : ι) : ℕ ×ₗ ℤ := (q.events event).key

/-! ## The pointers and the bins -/

/-- The pointers represent the bins. -/
structure Linked (q : EventQueue ι) (bs : List (List ι)) : Prop where
  bins : Bins q.nextBin q.nextInBin q.head bs
  binned : Binned q.key q.stamps bs
  nodup : bs.flatten.Nodup
  stamped : ∀ e ∈ bs.flatten, q.stamps e < q.insertions
  length : bs.flatten.length ≤ q.insertions

/-- The invariant between calls: moreover, exactly the scheduled events are in the bins, and none
of them is in the past. -/
structure Sound (q : EventQueue ι) (bs : List (List ι)) : Prop extends q.Linked bs where
  scheduled : ∀ e, e ∈ bs.flatten ↔ (q.events e).scheduled = true
  future : ∀ e ∈ bs.flatten, q.curTick ≤ (q.events e).when
  queue : ∀ e ∈ bs.flatten, (q.events e).queue = true

variable {q : EventQueue ι} {bs : List (List ι)} {event : ι}

/-! ### Insertion -/

theorem insertBefore_of_ne (curr : Option ι) {x : ι} (hx : x ≠ event) :
    (q.insertBefore event curr).nextBin x = q.nextBin x ∧
      (q.insertBefore event curr).nextInBin x = q.nextInBin x := by
  unfold insertBefore
  split
  · exact ⟨update_of_ne hx .., update_of_ne hx ..⟩
  · split <;> exact ⟨update_of_ne hx .., update_of_ne hx ..⟩

/-- `insertBefore` changes links only. -/
theorem insertBefore_eq (curr : Option ι) :
    q.insertBefore event curr = { q with
      nextBin := (q.insertBefore event curr).nextBin
      nextInBin := (q.insertBefore event curr).nextInBin } := by
  unfold insertBefore
  split
  · rfl
  · split <;> rfl

/-- The bins from `curr` on after `insertBefore`, if `curr` is not before the event. -/
theorem bins_insertBefore {curr : Option ι} (h : Bins q.nextBin q.nextInBin curr bs)
    (he : event ∉ bs.flatten) (hcurr : ∀ c ∈ curr, q.key event ≤ q.key c) :
    Bins (q.insertBefore event curr).nextBin (q.insertBefore event curr).nextInBin (some event)
      (insertBins q.key event bs) := by
  have hframe : Bins (q.insertBefore event curr).nextBin (q.insertBefore event curr).nextInBin
      curr bs := by
    refine h.congr fun x hx => insertBefore_of_ne curr ?_
    exact fun heq => he (heq ▸ hx)
  match bs, h with
  | [], h =>
    obtain rfl : curr = none := h
    exact ⟨rfl, update_self .., update_self ..⟩
  | (c :: l) :: bs, ⟨hc, hl, hbs⟩ =>
    subst hc
    obtain ⟨-, hl', hbs'⟩ := hframe
    by_cases hlt : q.key event < q.key c
    · -- a bin of its own
      have hbefore : q.insertBefore event (some c) = { q with
          nextBin := update q.nextBin event (some c)
          nextInBin := update q.nextInBin event none } :=
        if_pos (Event.lt_iff.mpr hlt)
      rw [insertBins, if_pos hlt]
      rw [hbefore] at hl' hbs' ⊢
      refine ⟨rfl, update_self .., ?_, hl', hbs'⟩
      exact update_self ..
    · -- the top of the bin of `c`, whose own `nextBin` is stale from now on
      have heq : q.key event = q.key c := le_antisymm (hcurr c rfl) (not_lt.mp hlt)
      have hbefore : q.insertBefore event (some c) = { q with
          nextBin := update q.nextBin event (q.nextBin c)
          nextInBin := update q.nextInBin event (some c) } :=
        if_neg (mt Event.lt_iff.mp hlt)
      have hce : c ≠ event := fun hce =>
        he (hce ▸ List.mem_append_left _ List.mem_cons_self)
      have hnext : (q.insertBefore event (some c)).nextBin event = q.nextBin c := by
        rw [hbefore]
        exact update_self ..
      have htop : (q.insertBefore event (some c)).nextInBin event = some c := by
        rw [hbefore]
        exact update_self ..
      rw [(insertBefore_of_ne _ hce).1] at hbs'
      rw [insertBins, if_neg hlt, if_pos heq]
      refine ⟨rfl, ⟨htop, hl'⟩, ?_⟩
      rw [hnext]
      exact hbs'

variable {prev : ι} {l : List ι} {nb ni : ι → Option ι} {n : ℕ}

/-- A bin before the event stays as it is. -/
theorem bins_insert_cons {curr : Option ι} (hl : Stack q.nextInBin (q.nextInBin prev) l)
    (he : event ∉ prev :: l)
    (hlt : q.key prev < q.key event)
    (h : Bins nb (q.insertBefore event curr).nextInBin (nb prev) (insertBins q.key event bs)) :
    Bins nb (q.insertBefore event curr).nextInBin (some prev)
      (insertBins q.key event ((prev :: l) :: bs)) := by
  have hframe : ∀ x ∈ prev :: l,
      (q.insertBefore event curr).nextInBin x = q.nextInBin x := by
    intro x hx
    refine (insertBefore_of_ne curr ?_).2
    rintro rfl
    exact he hx
  rw [insertBins, if_neg hlt.not_gt, if_neg hlt.ne']
  refine ⟨rfl, ?_, h⟩
  rw [hframe prev List.mem_cons_self]
  exact hl.congr fun x hx => hframe x (.tail _ hx)

/-- The insertion right after the bin of `prev`. -/
theorem bins_insert_here (h : Bins q.nextBin q.nextInBin (some prev) ((prev :: l) :: bs))
    (hlt : q.key prev < q.key event) (he : event ∉ ((prev :: l) :: bs).flatten)
    (hnodup : ((prev :: l) :: bs).flatten.Nodup)
    (hcurr : ∀ c ∈ q.nextBin prev, q.key event ≤ q.key c) :
    Bins (update (q.insertBefore event (q.nextBin prev)).nextBin prev (some event))
      (q.insertBefore event (q.nextBin prev)).nextInBin (some prev)
      (insertBins q.key event ((prev :: l) :: bs)) := by
  obtain ⟨-, hl, hbs⟩ := h
  obtain ⟨hel, hebs⟩ := not_or.mp (mt List.mem_append.mpr he)
  apply bins_insert_cons hl hel hlt
  rw [update_self]
  refine (bins_insertBefore hbs hebs hcurr).congr fun x hx => ⟨?_, rfl⟩
  refine update_of_ne ?_ ..
  rintro rfl
  rcases mem_insertBins.mp hx with rfl | hx
  · exact hel List.mem_cons_self
  · exact List.disjoint_of_nodup_append hnodup List.mem_cons_self hx

/-- The loop over the bins after the one of `prev`, and the insertion where it stops. -/
theorem bins_insert_after (h : Bins q.nextBin q.nextInBin (some prev) ((prev :: l) :: bs))
    (hlt : q.key prev < q.key event) (he : event ∉ ((prev :: l) :: bs).flatten)
    (hnodup : ((prev :: l) :: bs).flatten.Nodup) (hn : bs.length < n) :
    ∃ prev' curr, q.findBin event n prev (q.nextBin prev) = .ok (prev', curr) ∧
      prev' ∈ ((prev :: l) :: bs).flatten ∧
      Bins (update (q.insertBefore event curr).nextBin prev' (some event))
        (q.insertBefore event curr).nextInBin (some prev)
        (insertBins q.key event ((prev :: l) :: bs)) := by
  induction bs generalizing n prev l with
  | nil =>
    obtain ⟨n, rfl⟩ := Nat.exists_eq_succ_of_ne_zero (ne_zero_of_lt hn)
    have hnone : q.nextBin prev = none := h.2.2
    refine ⟨prev, none, ?_, List.mem_cons_self .., ?_⟩
    · rw [hnone]
      rfl
    · have hhere := bins_insert_here h hlt he hnodup (by rw [hnone]; exact nofun)
      rwa [hnone] at hhere
  | cons b bs ih =>
    obtain ⟨n, rfl⟩ := Nat.exists_eq_succ_of_ne_zero (ne_zero_of_lt hn)
    match b, h with
    | c :: l', h =>
      have hc : q.nextBin prev = some c := h.2.2.1
      by_cases hlt' : q.key c < q.key event
      · obtain ⟨-, hl, hbs⟩ := h
        rw [hc] at hbs
        obtain ⟨hel, hebs⟩ := not_or.mp (mt List.mem_append.mpr he)
        obtain ⟨prev', curr, hfind, hmem, hbins⟩ := ih hbs hlt' hebs
          (List.nodup_append'.mp hnodup).2.1 (Nat.lt_of_succ_lt_succ hn)
        refine ⟨prev', curr, ?_, List.mem_append_right _ hmem, ?_⟩
        · rw [hc]
          exact (if_pos (Event.lt_iff.mpr hlt')).trans hfind
        · -- the link from `prev` to `c` is not the one that is set
          have hpp : prev ≠ prev' := by
            rintro rfl
            exact List.disjoint_of_nodup_append hnodup List.mem_cons_self hmem
          have hne : prev ≠ event := by
            rintro rfl
            exact hel List.mem_cons_self
          apply bins_insert_cons hl hel hlt
          rw [update_of_ne hpp, (insertBefore_of_ne curr hne).1, hc]
          exact hbins
      · have hge : ∀ d ∈ q.nextBin prev, q.key event ≤ q.key d := by
          rw [hc]
          rintro _ ⟨⟩
          exact not_lt.mp hlt'
        have hhere := bins_insert_here h hlt he hnodup hge
        rw [hc] at hhere ⊢
        exact ⟨prev, some c, if_neg (mt Event.lt_iff.mp hlt'), List.mem_cons_self .., hhere⟩

/-- What is left of `insert` once the links are set. -/
theorem Linked.stamp (h : q.Linked bs) (he : event ∉ bs.flatten) {head : Option ι}
    (hbins : Bins nb ni head (insertBins q.key event bs)) :
    Linked { q with
      head, nextBin := nb, nextInBin := ni
      stamps := update q.stamps event q.insertions
      insertions := q.insertions + 1 } (insertBins q.key event bs) := by
  have hold : ∀ e ∈ bs.flatten, update q.stamps event q.insertions e = q.stamps e := by
    intro e hmem
    refine update_of_ne ?_ ..
    rintro rfl
    exact he hmem
  have hnew : update q.stamps event q.insertions event = q.insertions :=
    update_self ..
  refine ⟨hbins, ?_, ?_, ?_, ?_⟩
  · refine binned_insertBins (h.binned.congr fun e hmem => ⟨rfl, hold e hmem⟩) fun e hmem => ?_
    show update q.stamps event q.insertions e <
      update q.stamps event q.insertions event
    rw [hold e hmem, hnew]
    exact h.stamped e hmem
  · rw [flatten_insertBins_perm.nodup_iff, List.nodup_cons]
    exact ⟨he, h.nodup⟩
  · intro e hmem
    show update q.stamps event q.insertions e < q.insertions + 1
    rcases mem_insertBins.mp hmem with rfl | hmem
    · rw [hnew]
      exact Nat.lt_succ_self _
    · rw [hold e hmem]
      exact (h.stamped e hmem).trans (Nat.lt_succ_self _)
  · rw [flatten_insertBins_perm.length_eq]
    exact Nat.succ_le_succ h.length

omit [DecidableEq ι] in
/-- The bins are not more than the events. -/
theorem Linked.length_bins (h : q.Linked bs) : bs.length ≤ q.insertions := by
  refine le_trans ?_ h.length
  rw [List.length_flatten]
  have hpos : ∀ k ∈ bs.map List.length, 1 ≤ k := by
    intro k hk
    obtain ⟨b, hb, rfl⟩ := List.mem_map.mp hk
    exact List.length_pos_of_ne_nil fun hnil => h.bins.nil_not_mem (hnil ▸ hb)
  simpa using List.card_nsmul_le_sum _ 1 hpos

theorem Linked.insert (h : q.Linked bs) (he : event ∉ bs.flatten) :
    ∃ q', q.insert event = .ok q' ∧ q'.Linked (insertBins q.key event bs) ∧
      q'.events = q.events ∧ q'.curTick = q.curTick := by
  have hbins := h.bins
  unfold EventQueue.insert
  cases hhead : q.head with
  | none =>
    rw [hhead] at hbins
    exact ⟨_, rfl, h.stamp he (bins_insertBefore hbins he nofun), rfl, rfl⟩
  | some head =>
    rw [hhead] at hbins
    by_cases hle : q.key event ≤ q.key head
    · simp only [if_pos (Event.le_iff.mpr hle)]
      rw [insertBefore_eq]
      refine ⟨_, rfl, h.stamp he (bins_insertBefore hbins he ?_), rfl, rfl⟩
      rintro _ ⟨⟩
      exact hle
    · simp only [if_neg (mt Event.le_iff.mp hle)]
      match bs, hbins with
      | (c :: l) :: bs, hbins =>
        obtain rfl : head = c := Option.some.inj hbins.1
        obtain ⟨prev, curr, hfind, -, hbins'⟩ :=
          bins_insert_after hbins (not_le.mp hle) he h.nodup h.length_bins
        rw [hfind]
        refine ⟨_, rfl, ?_, ?_, ?_⟩
        · rw [insertBefore_eq]
          have := h.stamp he hbins'
          rw [← hhead] at this
          exact this
        · rw [insertBefore_eq]
        · rw [insertBefore_eq]

/-! ### Removal -/

/-- The loop inside a bin finds the member before the event, and the event is unlinked there. -/
theorem stack_unlink {curr : ι} (h : Stack q.nextInBin (q.nextInBin curr) l) (he : event ∈ l)
    (hnodup : (curr :: l).Nodup)
    (hn : l.length ≤ n) :
    ∃ c ∈ curr :: l, q.findInBin event n curr (q.nextInBin curr) = .ok c ∧
      Stack (update q.nextInBin c (q.nextInBin event))
        (update q.nextInBin c (q.nextInBin event) curr) (l.filter (· ≠ event)) := by
  induction l generalizing curr n with
  | nil => cases he
  | cons x l ih =>
    obtain ⟨hx, hl⟩ := h
    obtain ⟨n, rfl⟩ := Nat.exists_eq_succ_of_ne_zero (ne_zero_of_lt hn)
    obtain ⟨hcurr, hnodup'⟩ := List.nodup_cons.mp hnodup
    obtain ⟨hxl, -⟩ := List.nodup_cons.mp hnodup'
    rcases eq_or_ne x event with rfl | hxe
    · refine ⟨curr, List.mem_cons_self .., ?_, ?_⟩
      · exact if_pos hx
      · rw [filter_ne_cons hxl, update_self]
        refine hl.congr fun y hy => update_of_ne ?_ ..
        rintro rfl
        exact hcurr (.tail _ hy)
    · have hel : event ∈ l := (List.mem_cons.mp he).resolve_left (Ne.symm hxe)
      obtain ⟨c, hc, hfind, hstack⟩ := ih hl hel hnodup' (Nat.le_of_succ_le_succ hn)
      refine ⟨c, .tail _ hc, ?_, ?_⟩
      · rw [hx]
        exact (if_neg fun heq => hxe (Option.some.inj heq)).trans hfind
      · have hne : curr ≠ c := by
          rintro rfl
          exact hcurr hc
        rw [update_of_ne hne, List.filter_cons, if_pos (decide_eq_true hxe)]
        exact ⟨hx, hstack⟩

/-- The top leaves its bin: the next member inherits its link to the next bin. -/
theorem bins_pop {top : ι} (h : Bins q.nextBin q.nextInBin (some top) ((top :: l) :: bs))
    (hnodup : ((top :: l) :: bs).flatten.Nodup) :
    ∃ r nb, q.removeItem top top = .ok (r, { q with nextBin := nb }) ∧
      (∀ x ∉ top :: l, nb x = q.nextBin x) ∧
      Bins nb q.nextInBin r (eraseBins top ((top :: l) :: bs)) := by
  obtain ⟨-, hl, hbs⟩ := h
  rw [List.flatten_cons, List.cons_append, List.nodup_cons, List.mem_append, not_or] at hnodup
  obtain ⟨⟨htop, htopbs⟩, hnodup⟩ := hnodup
  rw [eraseBins_cons _ hbs.nil_not_mem htopbs, filter_ne_cons htop]
  unfold removeItem
  rw [if_pos rfl]
  match l, hl with
  | [], hl =>
    rw [show q.nextInBin top = none from hl]
    exact ⟨_, _, rfl, fun _ _ => rfl, hbs⟩
  | next :: l, ⟨hnext, hl⟩ =>
    rw [hnext]
    refine ⟨_, _, rfl, fun x hx => update_of_ne ?_ .., rfl, hl, ?_⟩
    · rintro rfl
      exact hx (.tail _ List.mem_cons_self)
    · rw [update_self]
      refine hbs.congr fun x hx => ⟨update_of_ne ?_ .., rfl⟩
      rintro rfl
      exact List.disjoint_of_nodup_append hnodup List.mem_cons_self hx

/-- `removeItem` takes the event out of its bin and touches no other bin. -/
theorem bins_removeItem {top : ι} (h : Bins q.nextBin q.nextInBin (some top) ((top :: l) :: bs))
    (he : event ∈ top :: l)
    (hnodup : ((top :: l) :: bs).flatten.Nodup) (hn : (top :: l).length ≤ q.insertions) :
    ∃ r nb ni, q.removeItem event top = .ok (r, { q with nextBin := nb, nextInBin := ni }) ∧
      (∀ x ∉ top :: l, nb x = q.nextBin x ∧ ni x = q.nextInBin x) ∧
      Bins nb ni r (eraseBins event ((top :: l) :: bs)) := by
  rcases eq_or_ne event top with rfl | htop
  · obtain ⟨r, nb, hr, hframe, hbins⟩ := bins_pop h hnodup
    exact ⟨r, nb, q.nextInBin, hr, fun x hx => ⟨hframe x hx, rfl⟩, hbins⟩
  · obtain ⟨-, hl, hbs⟩ := h
    have hel : event ∈ l := (List.mem_cons.mp he).resolve_left htop
    have hdisj := List.disjoint_of_nodup_append hnodup
    obtain ⟨c, hc, hfind, hstack⟩ := stack_unlink hl hel (List.nodup_append'.mp hnodup).1
      ((Nat.le_succ _).trans hn)
    refine ⟨some top, q.nextBin, update q.nextInBin c (q.nextInBin event), ?_, ?_, ?_⟩
    · unfold removeItem
      rw [if_neg htop, hfind]
      rfl
    · intro x hx
      refine ⟨rfl, update_of_ne ?_ ..⟩
      rintro rfl
      exact hx hc
    · rw [eraseBins_cons _ hbs.nil_not_mem (hdisj he), List.filter_cons,
        if_pos (decide_eq_true (Ne.symm htop))]
      refine ⟨rfl, hstack, hbs.congr fun x hx => ⟨rfl, update_of_ne ?_ ..⟩⟩
      rintro rfl
      exact hdisj hc hx

/-- A bin before that of the event stays as it is. -/
theorem bins_erase_cons (hl : Stack q.nextInBin (q.nextInBin prev) l) (he : event ∉ prev :: l)
    (hframe : ∀ x ∈ prev :: l, ni x = q.nextInBin x)
    (h : Bins nb ni (nb prev) (eraseBins event bs)) :
    Bins nb ni (some prev) (eraseBins event ((prev :: l) :: bs)) := by
  rw [eraseBins_cons_of_not_mem (List.cons_ne_nil _ _) he]
  refine ⟨rfl, ?_, h⟩
  rw [hframe prev List.mem_cons_self]
  exact hl.congr fun x hx => hframe x (.tail _ hx)

/-- The loop over the bins after the one of `prev`, and the removal in the bin it stops at. -/
theorem bins_remove_after (h : Bins q.nextBin q.nextInBin (some prev) ((prev :: l) :: bs))
    (hbinned : Binned q.key q.stamps bs) (he : event ∈ bs.flatten)
    (hnodup : ((prev :: l) :: bs).flatten.Nodup) (hn : bs.length ≤ n)
    (hlen : bs.flatten.length ≤ q.insertions) :
    ∃ prev' c r nb ni, q.findBin event n prev (q.nextBin prev) = .ok (prev', some c) ∧
      q.key c = q.key event ∧ prev' ∈ ((prev :: l) :: bs).flatten ∧
      q.removeItem event c = .ok (r, { q with nextBin := nb, nextInBin := ni }) ∧
      (∀ x ∉ bs.flatten, nb x = q.nextBin x ∧ ni x = q.nextInBin x) ∧
      Bins (update nb prev' r) ni (some prev) (eraseBins event ((prev :: l) :: bs)) := by
  induction bs generalizing n prev l with
  | nil => cases he
  | cons b bs ih =>
    obtain ⟨n, rfl⟩ := Nat.exists_eq_succ_of_ne_zero (ne_zero_of_lt hn)
    obtain ⟨-, hl, hbs⟩ := h
    have hdisj := List.disjoint_of_nodup_append hnodup
    have hnodup' := (List.nodup_append'.mp hnodup).2.1
    have hel : event ∉ prev :: l := fun hmem => hdisj hmem he
    match b, hbs with
    | c :: l', hbs =>
      have hc : q.nextBin prev = some c := hbs.1
      rw [hc] at hbs ⊢
      obtain ⟨huni, -, hinc, hbinned'⟩ := binned_cons_iff.mp hbinned
      by_cases hfirst : event ∈ c :: l'
      · -- the bin of the event: the loop stops, and the link from `prev` is renewed
        have hkey : q.key c = q.key event := huni c List.mem_cons_self event hfirst
        obtain ⟨r, nb, ni, hr, hframe, hbins⟩ := bins_removeItem hbs hfirst hnodup' (by
          rw [List.flatten_cons, List.length_append] at hlen
          exact (Nat.le_add_right _ _).trans hlen)
        refine ⟨prev, c, r, nb, ni, ?_, hkey, List.mem_cons_self .., hr, ?_, ?_⟩
        · refine if_neg (mt Event.lt_iff.mp ?_)
          exact hkey.not_lt
        · intro x hx
          exact hframe x fun hmem => hx (List.mem_append_left _ hmem)
        · apply bins_erase_cons hl hel
          · intro x hx
            exact (hframe x fun hmem => hdisj hx (List.mem_append_left _ hmem)).2
          · rw [update_self]
            refine hbins.congr fun x hx => ⟨update_of_ne ?_ .., rfl⟩
            rintro rfl
            rw [flatten_eraseBins] at hx
            exact hdisj List.mem_cons_self (List.mem_of_mem_filter hx)
      · have hrest : event ∈ bs.flatten := (List.mem_append.mp he).resolve_left hfirst
        have hlt : q.key c < q.key event := hinc c List.mem_cons_self event hrest
        obtain ⟨prev', d, r, nb, ni, hfind, hkey, hmem, hr, hframe, hbins⟩ := ih hbs hbinned' hrest
          hnodup' (Nat.le_of_succ_le_succ hn) (by
            rw [List.flatten_cons, List.length_append] at hlen
            exact (Nat.le_add_left _ _).trans hlen)
        have hprev : ∀ x ∈ prev :: l, nb x = q.nextBin x ∧ ni x = q.nextInBin x := fun x hx =>
          hframe x fun hmem => hdisj hx (List.mem_append_right _ hmem)
        refine ⟨prev', d, r, nb, ni, (if_pos (Event.lt_iff.mpr hlt)).trans hfind, hkey,
          List.mem_append_right _ hmem, hr, ?_, ?_⟩
        · intro x hx
          exact hframe x fun hmem => hx (List.mem_append_right _ hmem)
        · have hpp : prev ≠ prev' := by
            rintro rfl
            exact hdisj List.mem_cons_self hmem
          apply bins_erase_cons hl hel fun x hx => (hprev x hx).2
          rw [update_of_ne hpp, (hprev prev List.mem_cons_self).1, hc]
          exact hbins

/-- The rest of the invariant after a removal. -/
theorem Linked.erase (h : q.Linked bs) {head : Option ι}
    (hbins : Bins nb ni head (eraseBins event bs)) :
    Linked { q with head, nextBin := nb, nextInBin := ni } (eraseBins event bs) := by
  refine ⟨hbins, binned_eraseBins h.binned, ?_, ?_, ?_⟩
  · rw [flatten_eraseBins]
    exact h.nodup.filter _
  · rw [flatten_eraseBins]
    exact fun e he => h.stamped e (List.mem_of_mem_filter he)
  · rw [flatten_eraseBins]
    exact (List.length_filter_le _ _).trans h.length

theorem Linked.remove (h : q.Linked bs) (he : event ∈ bs.flatten)
    (hqueue : (q.events event).queue = true) :
    ∃ q', q.remove event = .ok q' ∧ q'.Linked (eraseBins event bs) ∧
      q'.events = q.events ∧ q'.curTick = q.curTick := by
  have hq : ¬ (q.events event).queue = false := by
    rw [hqueue]
    exact Bool.true_eq_false.mp
  match bs, h with
  | [], h => cases he
  | [] :: bs, h => exact h.bins.elim
  | (head :: l) :: bs, h =>
    have hbins := h.bins
    have hhead : q.head = some head := hbins.1
    rw [hhead] at hbins
    obtain ⟨huni, -, hinc, hbinned⟩ := binned_cons_iff.mp h.binned
    have hlen := h.length
    rw [List.flatten_cons, List.length_append] at hlen
    unfold EventQueue.remove
    rw [hhead]
    simp only [if_neg hq]
    by_cases hfirst : event ∈ head :: l
    · have hkey : q.key head = q.key event := huni head List.mem_cons_self event hfirst
      obtain ⟨r, nb, ni, hr, -, hbins'⟩ := bins_removeItem hbins hfirst h.nodup
        ((Nat.le_add_right _ _).trans hlen)
      rw [if_pos (Event.eq_iff.mpr hkey), hr]
      exact ⟨_, rfl, h.erase hbins', rfl, rfl⟩
    · have hrest : event ∈ bs.flatten := (List.mem_append.mp he).resolve_left hfirst
      have hlt : q.key head < q.key event := hinc head List.mem_cons_self event hrest
      obtain ⟨prev, c, r, nb, ni, hfind, hkey, -, hr, -, hbins'⟩ := bins_remove_after hbins hbinned
        hrest h.nodup ((Nat.le_succ _).trans h.length_bins) ((Nat.le_add_left _ _).trans hlen)
      rw [if_neg (mt Event.eq_iff.mp hlt.ne), hfind]
      refine ⟨_, ?_, h.erase hbins', rfl, rfl⟩
      show (if (q.events c).ne (q.events event) = true then _ else _) = _
      rw [if_neg (not_not.mpr hkey ∘ Event.ne_iff.mp), hr, ← hhead]
      rfl

/-! ## The calls keep the invariant -/

/-- The invariant up to one event that is not in the bins, whatever its fields say. -/
structure Apart (q : EventQueue ι) (bs : List (List ι)) (event : ι) : Prop extends q.Linked bs where
  absent : event ∉ bs.flatten
  scheduled : ∀ e ≠ event, (e ∈ bs.flatten ↔ (q.events e).scheduled = true)
  future : ∀ e ∈ bs.flatten, q.curTick ≤ (q.events e).when
  queue : ∀ e ∈ bs.flatten, (q.events e).queue = true

omit [DecidableEq ι] in
theorem Sound.apart (h : q.Sound bs) (hs : (q.events event).scheduled = false) :
    q.Apart bs event where
  toLinked := h.toLinked
  absent := by
    rw [h.scheduled, hs]
    exact Bool.false_ne_true
  scheduled := fun e _ => h.scheduled e
  future := h.future
  queue := h.queue

omit [DecidableEq ι] in
theorem Apart.sound (h : q.Apart bs event) (hs : (q.events event).scheduled = false) :
    q.Sound bs where
  toLinked := h.toLinked
  scheduled := by
    intro e
    rcases eq_or_ne e event with rfl | he
    · rw [hs]
      exact iff_of_false h.absent Bool.false_ne_true
    · exact h.scheduled e he
  future := h.future
  queue := h.queue

theorem modify_of_ne (f : Event → Event) {e : ι} (he : e ≠ event) :
    (q.modify event f).events e = q.events e :=
  update_of_ne he ..

theorem modify_self (f : Event → Event) :
    (q.modify event f).events event = f (q.events event) :=
  update_self ..

/-- The fields of the event apart may change. -/
theorem Apart.modify (h : q.Apart bs event) (f : Event → Event) :
    (q.modify event f).Apart bs event := by
  have hsame : ∀ e ∈ bs.flatten, (q.modify event f).events e = q.events e := by
    intro e he
    refine modify_of_ne f ?_
    rintro rfl
    exact h.absent he
  refine ⟨⟨h.bins, ?_, h.nodup, h.stamped, h.length⟩, h.absent, ?_, ?_, ?_⟩
  · refine h.binned.congr fun e he => ⟨?_, rfl⟩
    unfold key
    rw [hsame e he]
  · intro e he
    rw [modify_of_ne f he]
    exact h.scheduled e he
  · intro e he
    rw [hsame e he]
    exact h.future e he
  · intro e he
    rw [hsame e he]
    exact h.queue e he

theorem Sound.remove (h : q.Sound bs) (hs : (q.events event).scheduled = true) :
    ∃ q', q.remove event = .ok q' ∧ q'.Apart (eraseBins event bs) event ∧
      q'.events = q.events ∧ q'.curTick = q.curTick := by
  have he := (h.scheduled event).mpr hs
  obtain ⟨q', hq', hlinked, hevents, htick⟩ := h.toLinked.remove he (h.queue event he)
  have hmem : ∀ e, e ∈ (eraseBins event bs).flatten ↔ e ∈ bs.flatten ∧ e ≠ event := by
    intro e
    rw [flatten_eraseBins, List.mem_filter, decide_eq_true_iff]
  refine ⟨q', hq', ⟨hlinked, ?_, ?_, ?_, ?_⟩, hevents, htick⟩
  · rw [hmem]
    exact fun h => h.2 rfl
  · intro e hne
    rw [hmem, and_iff_left hne, hevents]
    exact h.scheduled e
  · intro e he
    rw [hevents, htick]
    exact h.future e ((hmem e).mp he).1
  · intro e he
    rw [hevents]
    exact h.queue e ((hmem e).mp he).1

/-- `insert` and the flags that are set after it: the event apart joins the bins. -/
theorem Apart.insert (h : q.Apart bs event) (hwhen : q.curTick ≤ (q.events event).when)
    (hqueue : (q.events event).queue = true) {f : Event → Event}
    (hf : ∀ e, (f e).when = e.when ∧ (f e).priority = e.priority ∧ (f e).queue = e.queue ∧
      (f e).scheduled = true) :
    ∃ q', q.insert event = .ok q' ∧
      (q'.modify event f).Sound (insertBins q.key event bs) ∧ q'.curTick = q.curTick := by
  obtain ⟨q', hq', hlinked, hevents, htick⟩ := h.toLinked.insert h.absent
  obtain ⟨hfw, hfp, hfq, hfs⟩ := hf (q.events event)
  have hself : (q'.modify event f).events event = f (q.events event) := by
    rw [modify_self, hevents]
  have hother : ∀ e ≠ event, (q'.modify event f).events e = q.events e := by
    intro e he
    rw [modify_of_ne f he, hevents]
  refine ⟨q', hq', ⟨⟨hlinked.bins, ?_, hlinked.nodup, hlinked.stamped, hlinked.length⟩, ?_, ?_, ?_⟩,
    htick⟩
  · refine hlinked.binned.congr fun e _ => ⟨?_, rfl⟩
    unfold key Event.key
    by_cases he : e = event
    · rw [he, hself, hevents, hfw, hfp]
    · rw [hother e he, hevents]
  · intro e
    rw [mem_insertBins]
    by_cases he : e = event
    · rw [he, hself]
      exact iff_of_true (.inl rfl) hfs
    · rw [hother e he, or_iff_right he]
      exact h.scheduled e he
  · intro e hmem
    show q'.curTick ≤ _
    rw [htick]
    by_cases he : e = event
    · rw [he, hself, hfw]
      exact hwhen
    · rw [hother e he]
      exact h.future e ((mem_insertBins.mp hmem).resolve_left he)
  · intro e hmem
    by_cases he : e = event
    · rw [he, hself, hfq]
      exact hqueue
    · rw [hother e he]
      exact h.queue e ((mem_insertBins.mp hmem).resolve_left he)

/-- A call that returns keeps the invariant and the time; one that does not fails an assert or does
something undefined. -/
def Safe (tick : ℕ) : Except EventFault (EventQueue ι) → Prop
  | .ok q => (∃ bs, q.Sound bs) ∧ tick ≤ q.curTick
  | .error fault => fault = .assertion ∨ fault = .undefined

theorem Sound.schedule (h : q.Sound bs) (event : ι) (when : ℕ) :
    Safe q.curTick (q.schedule event when) := by
  unfold EventQueue.schedule
  split
  · rename_i hassert
    obtain ⟨hle, hs, -⟩ := hassert
    obtain ⟨q', hq', hsound, htick⟩ :=
      ((h.apart hs).modify fun e => { e with when, queue := true }).insert
        (f := fun e => { e with scheduled := true })
        (by rw [modify_self]; exact hle) (by rw [modify_self]) fun e => ⟨rfl, rfl, rfl, rfl⟩
    rw [hq']
    exact ⟨⟨_, hsound⟩, htick.ge⟩
  · exact .inl rfl

theorem Sound.deschedule (h : q.Sound bs) (event : ι) : Safe q.curTick (q.deschedule event) := by
  unfold EventQueue.deschedule
  split
  · rename_i hassert
    obtain ⟨q', hq', hapart, -, htick⟩ := h.remove hassert.1
    rw [hq']
    have hclear := hapart.modify fun e => { e with squashed := false, scheduled := false }
    refine ⟨?_, ?_⟩
    · split
      · exact ⟨_, (hclear.modify Event.delete).sound (by rw [modify_self]; rfl)⟩
      · exact ⟨_, hclear.sound (by rw [modify_self])⟩
    · split <;> exact htick.ge
  · exact .inl rfl

theorem Sound.removeScheduled (h : q.Sound bs) (event : ι) :
    ∃ q' bs', q.removeScheduled event = .ok q' ∧ q'.Apart bs' event ∧ q'.curTick = q.curTick := by
  unfold EventQueue.removeScheduled
  split
  · rename_i hs
    obtain ⟨q', hq', hapart, -, htick⟩ := h.remove hs
    exact ⟨q', _, hq', hapart, htick⟩
  · rename_i hs
    exact ⟨q, bs, rfl, h.apart (Bool.eq_false_of_not_eq_true hs), rfl⟩

theorem Sound.reschedule (h : q.Sound bs) (event : ι) (when : ℕ) (always : Bool) :
    Safe q.curTick (q.reschedule event when always) := by
  unfold EventQueue.reschedule
  split
  · rename_i hassert
    obtain ⟨hle, -, -⟩ := hassert
    obtain ⟨q₁, bs₁, hq₁, hapart, htick₁⟩ := h.removeScheduled event
    obtain ⟨q', hq', hsound, htick⟩ :=
      (hapart.modify fun e => { e with when, queue := true }).insert
        (f := fun e => { e with squashed := false, scheduled := true })
        (by rw [modify_self]; exact htick₁.trans_le hle) (by rw [modify_self])
        fun e => ⟨rfl, rfl, rfl, rfl⟩
    rw [hq₁]
    show Safe q.curTick (EventQueue.insert _ event >>= _)
    rw [hq']
    exact ⟨⟨_, hsound⟩, (htick.trans htick₁).ge⟩
  · exact .inl rfl

/-- Squashing changes nothing that the queue looks at. -/
theorem Sound.modify (h : q.Sound bs) {f : Event → Event}
    (hf : ∀ e, (f e).when = e.when ∧ (f e).priority = e.priority ∧ (f e).queue = e.queue ∧
      (f e).scheduled = e.scheduled) : (q.modify event f).Sound bs := by
  have hsame : ∀ e, ((q.modify event f).events e).when = (q.events e).when ∧
      ((q.modify event f).events e).priority = (q.events e).priority ∧
      ((q.modify event f).events e).queue = (q.events e).queue ∧
      ((q.modify event f).events e).scheduled = (q.events e).scheduled := by
    intro e
    by_cases he : e = event
    · rw [he, modify_self]
      exact hf _
    · rw [modify_of_ne f he]
      exact ⟨rfl, rfl, rfl, rfl⟩
  refine ⟨⟨h.bins, ?_, h.nodup, h.stamped, h.length⟩, ?_, ?_, ?_⟩
  · refine h.binned.congr fun e _ => ⟨?_, rfl⟩
    unfold key Event.key
    rw [(hsame e).1, (hsame e).2.1]
  · intro e
    rw [(hsame e).2.2.2]
    exact h.scheduled e
  · intro e he
    rw [(hsame e).1]
    exact h.future e he
  · intro e he
    rw [(hsame e).2.2.1]
    exact h.queue e he

theorem Sound.call (h : q.Sound bs) (c : Call ι) : Safe q.curTick (q.call c) := by
  cases c with
  | schedule event when => exact h.schedule event when
  | deschedule event => exact h.deschedule event
  | reschedule event when always => exact h.reschedule event when always
  | squash event => exact ⟨⟨bs, h.modify fun e => ⟨rfl, rfl, rfl, rfl⟩⟩, le_rfl⟩

/-- What a handler does. -/
theorem Sound.handler (h : q.Sound bs) (calls : List (Call ι)) :
    Safe q.curTick (calls.foldlM EventQueue.call q) := by
  induction calls generalizing q bs with
  | nil => exact ⟨⟨bs, h⟩, le_rfl⟩
  | cons c calls ih =>
    have hcall := h.call c
    rw [List.foldlM_cons]
    cases hq : q.call c with
    | error fault =>
      rw [hq] at hcall
      exact hcall
    | ok q' =>
      rw [hq] at hcall
      obtain ⟨⟨bs', h'⟩, hle⟩ := hcall
      have hrest := ih h'
      show Safe q.curTick (calls.foldlM EventQueue.call q')
      cases hq' : calls.foldlM EventQueue.call q' with
      | error fault =>
        rw [hq'] at hrest
        exact hrest
      | ok q'' =>
        rw [hq'] at hrest
        exact ⟨hrest.1, hle.trans hrest.2⟩

/-! ## Servicing -/

/-- The head leaves the queue as `removeItem` has the top of a bin leave. -/
theorem popHead_eq {r : Option ι} (hhead : q.head = some event)
    (hr : q.removeItem event event = .ok (r, { q with nextBin := nb })) :
    q.popHead = .ok (event, { q with head := r, nextBin := nb }.modify event
      fun e => { e with scheduled := false }) := by
  unfold removeItem at hr
  rw [if_pos rfl] at hr
  unfold popHead
  rw [hhead]
  show (match q.nextInBin event with | some _ => _ | none => _) = _
  cases hnext : q.nextInBin event with
  | none =>
    rw [hnext] at hr
    obtain ⟨rfl, hq⟩ := Prod.mk.inj (Except.ok.inj hr)
    obtain rfl : q.nextBin = nb := congrArg nextBin hq
    rfl
  | some next =>
    rw [hnext] at hr
    obtain ⟨rfl, hq⟩ := Prod.mk.inj (Except.ok.inj hr)
    obtain rfl : update q.nextBin next (q.nextBin event) = nb := congrArg nextBin hq
    rfl

theorem Sound.popHead (h : q.Sound ((event :: l) :: bs)) :
    ∃ q', q.popHead = .ok (event, q') ∧ q'.Apart (eraseBins event ((event :: l) :: bs)) event ∧
      (q'.events event).scheduled = false ∧ (q'.events event).when = (q.events event).when ∧
      (∀ e ∈ (eraseBins event ((event :: l) :: bs)).flatten,
        (q'.events event).when ≤ (q'.events e).when) ∧
      q'.curTick = q.curTick := by
  have hbins := h.bins
  have hhead : q.head = some event := hbins.1
  rw [hhead] at hbins
  obtain ⟨r, nb, hr, -, hbins'⟩ := bins_pop hbins h.nodup
  have hmem : ∀ e, e ∈ (eraseBins event ((event :: l) :: bs)).flatten ↔
      e ∈ ((event :: l) :: bs).flatten ∧ e ≠ event := by
    intro e
    rw [flatten_eraseBins, List.mem_filter, decide_eq_true_iff]
  have hapart : Apart { q with head := r, nextBin := nb } _ event := {
    toLinked := h.erase hbins'
    absent := fun he => ((hmem event).mp he).2 rfl
    scheduled := fun e hne => by
      rw [hmem, and_iff_left hne]
      exact h.scheduled e
    future := fun e he => h.future e ((hmem e).mp he).1
    queue := fun e he => h.queue e ((hmem e).mp he).1 }
  refine ⟨_, popHead_eq hhead hr, hapart.modify _, ?_, ?_, ?_, rfl⟩
  · rw [modify_self]
  · rw [modify_self]
  · intro e he
    obtain ⟨hflat, hne⟩ := (hmem e).mp he
    rw [modify_self, modify_of_ne _ hne]
    exact Event.when_le_of_key_le (h.binned.le_of_mem hflat)

theorem Sound.autoDelete (h : q.Sound bs) (event : ι) : (q.autoDelete event).Sound bs := by
  unfold EventQueue.autoDelete
  split
  · rename_i hauto
    have hs : (q.events event).scheduled = false :=
      (Bool.not_eq_true' _).mp (Bool.and_eq_true_iff.mp hauto).2
    exact ((h.apart hs).modify Event.delete).sound (by rw [modify_self]; rfl)
  · exact h

theorem autoDelete_curTick (event : ι) :
    (q.autoDelete event).curTick = q.curTick := by
  unfold EventQueue.autoDelete
  split <;> rfl

theorem Sound.serviceOne (h : q.Sound bs) (calls : List (Call ι)) :
    Safe q.curTick (q.serviceOne calls) := by
  unfold EventQueue.serviceOne
  match bs, h with
  | [], h =>
    unfold EventQueue.popHead
    rw [show q.head = none from h.bins]
    exact .inr rfl
  | [] :: bs, h => exact h.bins.elim
  | (event :: l) :: bs, h =>
    obtain ⟨q₁, hq₁, hapart, hs, hwhen, hlater, htick⟩ := h.popHead
    rw [hq₁]
    show Safe q.curTick (if (q₁.events event).squashed = true then _ else _)
    split
    · have hsound := (hapart.modify fun e => { e with squashed := false }).sound
        (by rw [modify_self]; exact hs)
      refine ⟨⟨_, hsound.autoDelete event⟩, ?_⟩
      rw [autoDelete_curTick]
      exact htick.ge
    · -- the time goes on to the tick of the event, and the others are not before it
      have hle : q.curTick ≤ (q₁.events event).when := by
        rw [hwhen]
        exact h.future event List.mem_cons_self
      have hsound : Sound { q₁ with curTick := (q₁.events event).when } _ :=
        { hapart.sound hs with future := hlater }
      have hhandler := hsound.handler calls
      cases hq₂ : calls.foldlM EventQueue.call { q₁ with curTick := (q₁.events event).when } with
      | error fault =>
        rw [hq₂] at hhandler
        exact hhandler
      | ok q₂ =>
        rw [hq₂] at hhandler
        obtain ⟨⟨bs₂, h₂⟩, hle₂⟩ := hhandler
        show Safe q.curTick (if (q₂.events event).initialized = false then _ else _)
        split
        · exact .inr rfl
        · split
          · split
            · exact .inl rfl
            · exact ⟨⟨bs₂, h₂⟩, hle.trans hle₂⟩
          · refine ⟨⟨bs₂, h₂.autoDelete event⟩, ?_⟩
            rw [autoDelete_curTick]
            exact hle.trans hle₂

theorem Sound.step (h : q.Sound bs) (op : Op ι) : Safe q.curTick (q.step op) := by
  cases op with
  | call c => exact h.call c
  | serviceOne calls => exact h.serviceOne calls

omit [DecidableEq ι] in
theorem Linked.walk (h : q.Linked bs) : q.walk = some bs.flatten := by
  unfold EventQueue.walk
  rw [walkBins_eq_some h.bins h.length]
  rfl

omit [DecidableEq ι] in
theorem sound_of_empty (hhead : q.head = none) (hs : ∀ e, (q.events e).scheduled = false) :
    q.Sound [] where
  bins := hhead
  binned := binned_nil
  nodup := .nil
  stamped := nofun
  length := Nat.zero_le _
  scheduled := fun e => by
    rw [hs e]
    exact iff_of_false List.not_mem_nil Bool.false_ne_true
  future := nofun
  queue := nofun

theorem sound_of_runs {q₀ : EventQueue ι} {ops : List (Op ι)} (hhead : q₀.head = none)
    (hs : ∀ e, (q₀.events e).scheduled = false)
    (h : Runs (Within EventQueue.step Anytime) q₀ ops q) : ∃ bs, q.Sound bs := by
  refine h.invariant (P := fun q => ∃ bs, q.Sound bs) ?_ ⟨[], sound_of_empty hhead hs⟩
  rintro q op q' ⟨bs, h⟩ ⟨-, hq'⟩
  have hsafe := h.step op
  rw [hq'] at hsafe
  exact hsafe.1

end EventQueue

/-- **The event queue refines a sorted list.**  In every run from an empty queue, following the
pointers visits exactly the scheduled events, each once, by tick and priority and the last inserted
first among equals.  `serviceOne` takes the first of them; no call makes the time go back, runs
forever or panics with "event not found!". -/
theorem event_queue_refines_sorted_list {ι : Type} [DecidableEq ι] {q₀ q : EventQueue ι}
    {ops : List (EventQueue.Op ι)} (hhead : q₀.head = none)
    (hs : ∀ e, (q₀.events e).scheduled = false)
    (h : Runs (Within EventQueue.step Anytime) q₀ ops q) :
    ∃ l, q.walk = some l ∧ l.Nodup ∧ (∀ e, e ∈ l ↔ (q.events e).scheduled = true) ∧
      l.Pairwise (Earlier q.key q.stamps) ∧
      (∀ e l', l = e :: l' → ∃ q', q.popHead = .ok (e, q') ∧ q'.walk = some l') ∧
      ∀ op, (∀ q', q.step op = .ok q' → q.curTick ≤ q'.curTick) ∧
        q.step op ≠ .error .notFound ∧ q.step op ≠ .error .endless := by
  obtain ⟨bs, hsound⟩ := EventQueue.sound_of_runs hhead hs h
  refine ⟨bs.flatten, hsound.walk, hsound.nodup, hsound.scheduled, hsound.binned.pairwise, ?_, ?_⟩
  · intro e l' hl
    match bs, hsound with
    | [] :: bs, hsound => exact hsound.bins.elim
    | (event :: l) :: bs, hsound =>
      obtain ⟨rfl, rfl⟩ := List.cons.inj hl
      obtain ⟨q', hq', hapart, -⟩ := hsound.popHead
      refine ⟨q', hq', ?_⟩
      have hnodup := hsound.nodup
      rw [hl] at hnodup
      rw [hapart.walk, flatten_eraseBins, hl, filter_ne_cons (List.nodup_cons.mp hnodup).1]
  · intro op
    have hsafe := hsound.step op
    refine ⟨fun q' hq' => ?_, fun hq' => ?_, fun hq' => ?_⟩
    · rw [hq'] at hsafe
      exact hsafe.2
    · rw [hq'] at hsafe
      rcases hsafe with hsafe | hsafe <;> cases hsafe
    · rw [hq'] at hsafe
      rcases hsafe with hsafe | hsafe <;> cases hsafe

/-- Three events at tick 5 and one later: the handler of the first to be serviced, the last one
scheduled, puts itself back behind all and takes one of the others out of its bin. -/
theorem event_queue_refines_sorted_list_handler :
    ∃ q : EventQueue ℕ, Runs (Within EventQueue.step Anytime)
        ({ events := fun _ => {} } : EventQueue ℕ)
        [.call (.schedule 0 5), .call (.schedule 1 9), .call (.schedule 2 5), .call (.schedule 3 5),
          .serviceOne [.reschedule 3 9 true, .deschedule 0, .schedule 4 5]] q ∧
      (q.walk = some [4, 2, 3, 1] ∧ q.curTick = 5) ∧
      ∃ l, q.walk = some l ∧ l.Nodup ∧ (∀ e, e ∈ l ↔ (q.events e).scheduled = true) ∧
        l.Pairwise (Earlier q.key q.stamps) ∧
        (∀ e l', l = e :: l' → ∃ q', q.popHead = .ok (e, q') ∧ q'.walk = some l') ∧
        ∀ op, (∀ q', q.step op = .ok q' → q.curTick ≤ q'.curTick) ∧
          q.step op ≠ .error .notFound ∧ q.step op ≠ .error .endless := by
  refine exists_runs_and_of_execWithin (by decide +kernel) ?_
  intro q hrun _
  exact event_queue_refines_sorted_list rfl (fun _ => rfl) hrun
