/-
# A layer of the crossbar

`BaseXBar::Layer` (`src/mem/xbar.cc`): the arbitration point in front of one
destination port.  A source port asks with `tryTiming`; the layer refuses it
while it is busy or waits for the peer, and remembers it for a retry.

`sendRetry` calls out of the layer, and the port called may come back at once.
The function around the call is therefore cut in two: `beginRetry` up to the
call, `endRetry` from its return on.  Likewise an accepted `tryTiming` and the
`succeededTiming` or `failedTiming` that answers it are steps of their own, so
whatever the ports do in between is an interleaving of steps.

Left out: the drain manager and the statistics, which the flow control does not
read.  The release event is the tick it is scheduled for.

* `LayerSystem.step`    — one call of the layer, or the return of `sendRetry`.
* `LayerSystem.Polite`  — what the ports and the peer may do.
* `LayerSystem.Tracked` — the invariant of all runs.
-/
import Gem5.TransitionSystem
import Mathlib

open List

open Function

/-! ## The layer -/

inductive LayerState
  | IDLE | BUSY | RETRY
  deriving DecidableEq, Repr

/-- The fields of a layer; `P` are the source ports. -/
structure Layer (P : Type) where
  state : LayerState := .IDLE
  waitingForLayer : List P := []
  waitingForPeer : Option P := none
  releaseEvent : Option ℕ := none

variable {P : Type}

namespace Layer

variable (l : Layer P)

/-- `occupyLayer(until)` at the tick `now`; `schedule` has asserts of its own. -/
def occupyLayer (now untilTick : ℕ) : Except Abort (Layer P) :=
  if l.state = .BUSY ∧ untilTick ≠ 0 ∧ now ≤ untilTick ∧ l.releaseEvent = none then
    .ok { l with releaseEvent := some untilTick }
  else .error .assertion

def tryTiming [DecidableEq P] (l : Layer P) (srcPort : P) : Except Abort (Bool × Layer P) :=
  if l.state = .BUSY ∨ l.waitingForPeer.isSome then
    if srcPort ∈ l.waitingForLayer then .error .assertion
    else .ok (false, { l with waitingForLayer := l.waitingForLayer ++ [srcPort] })
  else .ok (true, { l with state := .BUSY })

def succeededTiming (now busyTime : ℕ) : Except Abort (Layer P) :=
  if l.state = .BUSY then l.occupyLayer now busyTime else .error .assertion

def failedTiming (srcPort : P) (now busyTime : ℕ) : Except Abort (Layer P) :=
  if l.waitingForPeer = none ∧ l.state = .BUSY then
    { l with waitingForPeer := some srcPort }.occupyLayer now busyTime
  else .error .assertion

/-- `retryWaiting` up to the call of `sendRetry`, with the port that is called. -/
def beginRetry : Except Abort (P × Layer P) :=
  match l.waitingForLayer with
  | retryingPort :: rest =>
    if l.state = .IDLE then .ok (retryingPort, { l with state := .RETRY, waitingForLayer := rest })
    else .error .assertion
  | [] => .error .assertion

/-- `retryWaiting` after `sendRetry` has returned. -/
def endRetry (now clockEdge : ℕ) : Except Abort (Layer P) :=
  if l.state = .RETRY then { l with state := .BUSY }.occupyLayer now clockEdge else .ok l

/-- `releaseLayer`, up to the call of `sendRetry` if it comes to that. -/
def releaseLayer : Except Abort (Option P × Layer P) :=
  if l.state = .BUSY ∧ l.releaseEvent = none then
    let l := { l with state := .IDLE }
    if l.waitingForLayer ≠ [] ∧ l.waitingForPeer = none then do
      let r ← l.beginRetry
      pure (some r.1, r.2)
    else .ok (none, l)
  else .error .assertion

/-- `recvRetry`, up to the call of `sendRetry` if it comes to that. -/
def recvRetry : Except Abort (Option P × Layer P) :=
  match l.waitingForPeer with
  | none => .error .assertion
  | some p =>
    let l := { l with waitingForLayer := p :: l.waitingForLayer, waitingForPeer := none }
    if l.state = .IDLE then do
      let r ← l.beginRetry
      pure (some r.1, r.2)
    else if l.state = .BUSY then .ok (none, l)
    else .error .assertion

end Layer

/-! ## The layer among its ports -/

/-- The layer with what is under way around it: the port whose packet is being forwarded, whether
a call of `sendRetry` has yet to return, the ports that were refused or failed and have not been
sent a retry since, and whether the peer still owes a retry. -/
structure LayerSystem (P : Type) where
  layer : Layer P := {}
  now : ℕ := 0
  forwarding : Option P := none
  retrying : Bool := false
  owed : P → Bool := fun _ => false
  peerOwes : Bool := false

/-- The calls of a layer, the return of `sendRetry` and the passing of time. -/
inductive LayerOp (P : Type)
  | tryTiming (srcPort : P)
  | succeededTiming (busyTime : ℕ)
  | failedTiming (busyTime : ℕ)
  | releaseLayer
  | recvRetry
  | sendRetryReturns (clockEdge : ℕ)
  | advance (t : ℕ)

namespace LayerSystem

section Steps

variable [DecidableEq P]

variable (s : LayerSystem P)

/-- The layer after a call that may have sent a retry. -/
def sendRetry (r : Option P × Layer P) : LayerSystem P :=
  match r.1 with
  | none => { s with layer := r.2 }
  | some p => { s with layer := r.2, retrying := true, owed := Function.update s.owed p false }

def step : LayerOp P → Except Abort (LayerSystem P)
  | .tryTiming p => do
    let r ← s.layer.tryTiming p
    if r.1 then pure { s with layer := r.2, forwarding := some p }
    else pure { s with layer := r.2, owed := Function.update s.owed p true }
  | .succeededTiming busyTime => do
    let l ← s.layer.succeededTiming s.now busyTime
    pure { s with layer := l, forwarding := none }
  | .failedTiming busyTime =>
    match s.forwarding with
    | none => .error .undefined
    | some p => do
      let l ← s.layer.failedTiming p s.now busyTime
      pure { s with
        layer := l, forwarding := none, owed := Function.update s.owed p true, peerOwes := true }
  | .releaseLayer => do
    let r ← { s.layer with releaseEvent := none }.releaseLayer
    pure (s.sendRetry r)
  | .recvRetry => do
    let r ← s.layer.recvRetry
    pure ({ s with peerOwes := false }.sendRetry r)
  | .sendRetryReturns clockEdge => do
    let l ← s.layer.endRetry s.now clockEdge
    pure { s with layer := l, retrying := false }
  | .advance t => .ok { s with now := t }

omit [DecidableEq P] in
/-- No call is under way. -/
def Settled : Prop := s.forwarding = none ∧ s.retrying = false

/-- A port that waits for a retry, or whose packet is being forwarded, does not try; what the layer
accepted is answered once, for a later tick; the release event fires at its tick; the peer
sends one retry for each failure; time stands still while a call is under way. -/
def Polite : LayerOp P → Prop
  | .tryTiming p => s.owed p = false ∧ s.forwarding ≠ some p
  | .succeededTiming busyTime | .failedTiming busyTime => s.forwarding ≠ none ∧ s.now < busyTime
  | .releaseLayer => s.Settled ∧ s.layer.releaseEvent = some s.now
  | .recvRetry => s.peerOwes = true
  | .sendRetryReturns clockEdge => s.forwarding = none ∧ s.retrying = true ∧ s.now ≤ clockEdge
  | .advance t => s.Settled ∧ s.now < t ∧ ∀ e ∈ s.layer.releaseEvent, t ≤ e

instance (s : LayerSystem P) : Decidable s.Settled := inferInstanceAs (Decidable (_ ∧ _))

instance (s : LayerSystem P) : (op : LayerOp P) → Decidable (s.Polite op)
  | .tryTiming _ | .succeededTiming _ | .failedTiming _ | .releaseLayer | .sendRetryReturns _ =>
    inferInstanceAs (Decidable (_ ∧ _))
  | .recvRetry => inferInstanceAs (Decidable (_ = _))
  | .advance t =>
    inferInstanceAs (Decidable (s.Settled ∧ s.now < t ∧ ∀ e ∈ s.layer.releaseEvent, t ≤ e))

end Steps

/-! ## The invariant -/

/-- The state agrees with the calls under way and the pending event, and every port that is owed a
retry is in exactly one waiting place. -/
structure Tracked (s : LayerSystem P) : Prop where
  event : ∀ e ∈ s.layer.releaseEvent, s.layer.state = .BUSY ∧ s.forwarding = none ∧ 0 < e
  busy : s.layer.state = .BUSY → s.forwarding = none → s.layer.releaseEvent ≠ none
  idle : s.layer.state = .IDLE → s.retrying = false
  forwards : ∀ p ∈ s.forwarding,
    s.layer.state = .BUSY ∧ s.layer.waitingForPeer = none ∧ s.owed p = false
  retry : s.layer.state = .RETRY → s.retrying = true ∧ s.layer.waitingForPeer = none
  waiting : s.layer.state = .IDLE → s.layer.waitingForPeer = none → s.layer.waitingForLayer = []
  peer : s.peerOwes = s.layer.waitingForPeer.isSome
  started : s.retrying = true ∨ s.layer.state = .IDLE ∧ s.peerOwes = true → 0 < s.now
  once : (s.layer.waitingForPeer.toList ++ s.layer.waitingForLayer).Nodup
  owes : ∀ p, s.owed p = true ↔ p ∈ s.layer.waitingForPeer.toList ++ s.layer.waitingForLayer

theorem tracked_init : ({} : LayerSystem P).Tracked := by
  constructor <;> simp

variable {s t : LayerSystem P}

/-- With no port forwarding and no event pending, occupying the busy layer succeeds. -/
theorem occupyLayer_eq_ok {l : Layer P} {now e : ℕ} (hb : l.state = .BUSY) (he : e ≠ 0)
    (hle : now ≤ e) (hnone : l.releaseEvent = none) :
    l.occupyLayer now e = .ok { l with releaseEvent := some e } :=
  if_pos ⟨hb, he, hle, hnone⟩

/-- No event is pending while a packet is being forwarded. -/
theorem Tracked.no_event (h : s.Tracked) (hf : s.forwarding ≠ none) :
    s.layer.releaseEvent = none := by
  by_contra hne
  obtain ⟨e, he⟩ := Option.ne_none_iff_exists'.mp hne
  exact hf (h.event e he).2.1

/-- Nor while the layer is not busy. -/
theorem Tracked.no_event_of_not_busy (h : s.Tracked) (hb : s.layer.state ≠ .BUSY) :
    s.layer.releaseEvent = none := by
  by_contra hne
  obtain ⟨e, he⟩ := Option.ne_none_iff_exists'.mp hne
  exact hb (h.event e he).1

/-- A port that is owed nothing waits nowhere. -/
theorem Tracked.not_mem_of_not_owed {p : P} (h : s.Tracked) (hp : s.owed p = false) :
    p ∉ s.layer.waitingForPeer.toList ++ s.layer.waitingForLayer := by
  rw [← h.owes p, hp]
  exact Bool.false_ne_true

/-- What both answers to an accepted packet do to the state. -/
theorem Tracked.answered {e : ℕ} (h : s.Tracked) (hf : s.forwarding ≠ none) (he : s.now < e) :
    s.layer.state = .BUSY ∧ s.layer.waitingForPeer = none ∧ s.peerOwes = false ∧
      ∀ l : Layer P, l.state = s.layer.state → l.releaseEvent = s.layer.releaseEvent →
        l.occupyLayer s.now e = .ok { l with releaseEvent := some e } := by
  obtain ⟨p, hp⟩ := Option.ne_none_iff_exists'.mp hf
  obtain ⟨hb, hpeer, -⟩ := h.forwards p hp
  refine ⟨hb, hpeer, ?_, fun l hl hev => ?_⟩
  · rw [h.peer, hpeer]
    rfl
  · exact occupyLayer_eq_ok (hl.trans hb) (by omega) (le_of_lt he) (hev.trans (h.no_event hf))

/-! ## Sending a retry -/

variable [DecidableEq P]

/-- A layer that has just become idle, or has just heard from its peer, and retries the first port
it has.  `l` is the layer before `beginRetry`. -/
theorem Tracked.begins {l : Layer P} {p : P} {rest : List P} (hidle : l.state = .IDLE)
    (hw : l.waitingForLayer = p :: rest) (hpeer : l.waitingForPeer = none)
    (hev : l.releaseEvent = none) (hnow : 0 < s.now) (hf : s.forwarding = none)
    (hp : s.peerOwes = false) (honce : (p :: rest).Nodup)
    (howes : ∀ q, s.owed q = true ↔ q ∈ p :: rest) :
    ∃ r, l.beginRetry = .ok r ∧ (s.sendRetry (some r.1, r.2)).Tracked := by
  refine ⟨(p, { l with state := .RETRY, waitingForLayer := rest }), ?_, ?_⟩
  · unfold Layer.beginRetry
    rw [hw]
    exact if_pos hidle
  · have hnotin : p ∉ rest := (nodup_cons.mp honce).1
    constructor
    · intro e he
      rw [hev] at he
      cases he
    · exact nofun
    · exact nofun
    · intro q hq
      rw [show (s.sendRetry _).forwarding = s.forwarding from rfl, hf] at hq
      cases hq
    · exact fun _ => ⟨rfl, hpeer⟩
    · exact nofun
    · show s.peerOwes = l.waitingForPeer.isSome
      rw [hp, hpeer]
      rfl
    · exact fun _ => hnow
    · show (l.waitingForPeer.toList ++ rest).Nodup
      rw [hpeer]
      exact (nodup_cons.mp honce).2
    · -- the port that is called is no longer owed a retry
      intro q
      show update s.owed p false q = true ↔ q ∈ l.waitingForPeer.toList ++ rest
      rw [hpeer]
      rcases eq_or_ne q p with rfl | hq
      · simpa using hnotin
      · rw [update_of_ne hq, howes q]
        simp [hq]

/-! ## The steps -/

/-- A refused port is put at the end of the list, where it was not. -/
theorem Tracked.refuse {p : P} (h : s.Tracked) (hp : s.owed p = false)
    (hforw : s.forwarding ≠ some p)
    (hb : s.layer.state = .BUSY ∨ s.layer.waitingForPeer.isSome = true) :
    { s with
      layer := { s.layer with waitingForLayer := s.layer.waitingForLayer ++ [p] }
      owed := update s.owed p true }.Tracked := by
  have hnotin := h.not_mem_of_not_owed hp
  refine ⟨h.event, h.busy, h.idle, ?_, h.retry, ?_, h.peer, h.started, ?_, ?_⟩
  · intro q hq
    obtain ⟨hbusy, hpeer, hq'⟩ := h.forwards q hq
    have hqp : q ≠ p := fun hqp => hforw (by rw [← hqp]; exact hq)
    exact ⟨hbusy, hpeer, (update_of_ne hqp _ _).trans hq'⟩
  · intro hidle hnone
    rcases hb with hb | hb
    · rw [show s.layer.state = .IDLE from hidle] at hb
      cases hb
    · rw [show s.layer.waitingForPeer = none from hnone] at hb
      cases hb
  · show (s.layer.waitingForPeer.toList ++ (s.layer.waitingForLayer ++ [p])).Nodup
    rw [← append_assoc]
    exact nodup_append.mpr ⟨h.once, pairwise_singleton _ p, fun a ha b hb hab => by
      rw [mem_singleton.mp hb] at hab
      exact hnotin (hab ▸ ha)⟩
  · intro q
    show update s.owed p true q = true ↔
      q ∈ s.layer.waitingForPeer.toList ++ (s.layer.waitingForLayer ++ [p])
    rcases eq_or_ne q p with rfl | hq
    · simp
    · rw [update_of_ne hq, h.owes q]
      simp [hq]

theorem Tracked.tryTiming {p : P} (h : s.Tracked) (hok : s.Polite (.tryTiming p)) :
    ∃ t, s.step (.tryTiming p) = .ok t ∧ t.Tracked := by
  obtain ⟨hp, hforw⟩ := hok
  by_cases hb : s.layer.state = .BUSY ∨ s.layer.waitingForPeer.isSome = true
  · have hnotin : p ∉ s.layer.waitingForLayer := fun hmem =>
      h.not_mem_of_not_owed hp (mem_append_right _ hmem)
    refine ⟨_, ?_, h.refuse hp hforw hb⟩
    simp only [step, Layer.tryTiming, if_pos hb, if_neg hnotin]
    rfl
  · obtain ⟨hnb, hpeer⟩ := not_or.mp hb
    have hpeer : s.layer.waitingForPeer = none := by simpa using hpeer
    have hnone := h.no_event_of_not_busy hnb
    refine ⟨{ s with layer := { s.layer with state := .BUSY }, forwarding := some p }, ?_, ?_⟩
    · simp only [step, Layer.tryTiming, if_neg hb]
      rfl
    · refine ⟨?_, nofun, nofun, ?_, nofun, nofun, h.peer, ?_, h.once, h.owes⟩
      · intro e he
        rw [show s.layer.releaseEvent = some e from he] at hnone
        cases hnone
      · rintro q ⟨⟩
        exact ⟨rfl, hpeer, hp⟩
      · rintro (hr | ⟨hi, -⟩)
        · exact h.started (.inl hr)
        · cases hi

theorem Tracked.succeededTiming {e : ℕ} (h : s.Tracked) (hok : s.Polite (.succeededTiming e)) :
    ∃ t, s.step (.succeededTiming e) = .ok t ∧ t.Tracked := by
  obtain ⟨hf, he⟩ := hok
  obtain ⟨hb, hpeer, hpo, hocc⟩ := h.answered hf he
  refine ⟨{ s with layer := { s.layer with releaseEvent := some e }, forwarding := none }, ?_, ?_⟩
  · simp only [step, Layer.succeededTiming, if_pos hb, hocc s.layer rfl rfl]
    rfl
  · refine ⟨?_, fun _ _ => Option.some_ne_none e, h.idle, nofun, h.retry, h.waiting, h.peer,
      h.started, h.once, h.owes⟩
    rintro e' ⟨⟩
    exact ⟨hb, rfl, by omega⟩

theorem Tracked.failedTiming {e : ℕ} (h : s.Tracked) (hok : s.Polite (.failedTiming e)) :
    ∃ t, s.step (.failedTiming e) = .ok t ∧ t.Tracked := by
  obtain ⟨hf, he⟩ := hok
  obtain ⟨hb, hpeer, hpo, hocc⟩ := h.answered hf he
  obtain ⟨p, hp⟩ := Option.ne_none_iff_exists'.mp hf
  have howed : s.owed p = false := (h.forwards p hp).2.2
  have hnotin : p ∉ s.layer.waitingForLayer := fun hmem =>
    h.not_mem_of_not_owed howed (mem_append_right _ hmem)
  have honce := h.once
  rw [hpeer] at honce
  refine ⟨{ s with
    layer := { s.layer with waitingForPeer := some p, releaseEvent := some e }
    forwarding := none, owed := update s.owed p true, peerOwes := true }, ?_, ?_⟩
  · have hcond : s.layer.waitingForPeer = none ∧ s.layer.state = .BUSY := ⟨hpeer, hb⟩
    simp only [step, hp, Layer.failedTiming, if_pos hcond]
    rw [hocc { s.layer with waitingForPeer := some p } rfl rfl]
    rfl
  · refine ⟨?_, fun _ _ => Option.some_ne_none e, h.idle, nofun, ?_, nofun, rfl, ?_, ?_, ?_⟩
    · rintro e' ⟨⟩
      exact ⟨hb, rfl, by omega⟩
    · intro hr
      rw [show s.layer.state = .RETRY from hr] at hb
      cases hb
    · rintro (hr | ⟨hi, -⟩)
      · exact h.started (.inl hr)
      · rw [show s.layer.state = .IDLE from hi] at hb
        cases hb
    · exact nodup_cons.mpr ⟨hnotin, honce⟩
    · intro q
      show update s.owed p true q = true ↔ q ∈ p :: s.layer.waitingForLayer
      rcases eq_or_ne q p with rfl | hq
      · simp
      · rw [update_of_ne hq, h.owes q, hpeer]
        simp [hq]

theorem Tracked.releaseLayer (h : s.Tracked) (hok : s.Polite .releaseLayer) :
    ∃ t, s.step .releaseLayer = .ok t ∧ t.Tracked := by
  obtain ⟨⟨hf, hret⟩, hev⟩ := hok
  obtain ⟨hb, -, hpos⟩ := h.event s.now hev
  by_cases hw : s.layer.waitingForLayer ≠ [] ∧ s.layer.waitingForPeer = none
  · obtain ⟨hne, hpeer⟩ := hw
    obtain ⟨p, rest, hrest⟩ := exists_cons_of_ne_nil hne
    have hpo : s.peerOwes = false := by
      rw [h.peer, hpeer]
      rfl
    have hall : s.layer.waitingForPeer.toList ++ s.layer.waitingForLayer = p :: rest := by
      rw [hpeer, hrest]
      rfl
    obtain ⟨r, hr, ht⟩ := Tracked.begins (s := s)
      (l := { s.layer with state := .IDLE, releaseEvent := none }) rfl hrest hpeer rfl hpos hf hpo
      (hall ▸ h.once) (hall ▸ h.owes)
    refine ⟨_, ?_, ht⟩
    unfold step Layer.releaseLayer
    rw [if_pos ⟨hb, rfl⟩, if_pos ⟨hne, hpeer⟩, hr]
    rfl
  · refine ⟨{ s with layer := { s.layer with state := .IDLE, releaseEvent := none } }, ?_, ?_⟩
    · simp only [step, Layer.releaseLayer, hb, if_true, and_self, if_neg hw]
      rfl
    · refine ⟨nofun, nofun, fun _ => hret, ?_, nofun, ?_, h.peer, fun _ => hpos, h.once, h.owes⟩
      · intro q hq
        rw [show s.forwarding = some q from hq] at hf
        cases hf
      · intro _ hpeer
        by_contra hne
        exact hw ⟨hne, hpeer⟩

theorem Tracked.recvRetry (h : s.Tracked) (hok : s.Polite .recvRetry) :
    ∃ t, s.step .recvRetry = .ok t ∧ t.Tracked := by
  have hpo : s.peerOwes = true := hok
  have hsome : s.layer.waitingForPeer.isSome = true := by rw [← h.peer, hpo]
  obtain ⟨p, hp⟩ := Option.isSome_iff_exists.mp hsome
  have hall : s.layer.waitingForPeer.toList ++ s.layer.waitingForLayer =
      p :: s.layer.waitingForLayer := by
    rw [hp]
    rfl
  have honce := h.once
  have howes := h.owes
  rw [hall] at honce howes
  -- nothing is being forwarded, and `sendRetry` is not about to be answered
  have hf : s.forwarding = none := by
    by_contra hne
    obtain ⟨q, hq⟩ := Option.ne_none_iff_exists'.mp hne
    rw [(h.forwards q hq).2.1] at hp
    cases hp
  cases hst : s.layer.state with
  | IDLE =>
    have hnone := h.no_event_of_not_busy (by rw [hst]; exact nofun)
    obtain ⟨r, hr, ht⟩ := Tracked.begins (s := { s with peerOwes := false })
      (l := { s.layer with waitingForLayer := p :: s.layer.waitingForLayer, waitingForPeer := none })
      hst rfl rfl hnone (h.started (.inr ⟨hst, hpo⟩)) hf rfl honce howes
    refine ⟨_, ?_, ht⟩
    unfold step Layer.recvRetry
    rw [hp]
    dsimp only at hr ⊢
    rw [if_pos hst, hr]
    rfl
  | BUSY =>
    refine ⟨{ s with
      layer := { s.layer with
        waitingForLayer := p :: s.layer.waitingForLayer, waitingForPeer := none }
      peerOwes := false }, ?_, ?_⟩
    · simp only [step, Layer.recvRetry, hp, hst]
      rfl
    · have hi : ∀ {Q : Prop}, s.layer.state = .IDLE → Q := by
        intro Q hi
        rw [hi] at hst
        cases hst
      have hr : ∀ {Q : Prop}, s.layer.state = .RETRY → Q := by
        intro Q hr
        rw [hr] at hst
        cases hst
      refine ⟨h.event, h.busy, h.idle, ?_, hr, hi, rfl, ?_, honce, howes⟩
      · intro q hq
        rw [show s.forwarding = some q from hq] at hf
        cases hf
      · rintro (hret | ⟨h', -⟩)
        · exact h.started (.inl hret)
        · exact hi h'
  | RETRY =>
    rw [(h.retry hst).2] at hp
    cases hp

theorem Tracked.sendRetryReturns {e : ℕ} (h : s.Tracked) (hok : s.Polite (.sendRetryReturns e)) :
    ∃ t, s.step (.sendRetryReturns e) = .ok t ∧ t.Tracked := by
  obtain ⟨hf, hret, hle⟩ := hok
  have hpos := h.started (.inl hret)
  by_cases hst : s.layer.state = .RETRY
  · -- the port did not come back at once: the layer is busy until the clock edge
    have hnone := h.no_event_of_not_busy (by rw [hst]; exact nofun)
    have hocc := occupyLayer_eq_ok (l := { s.layer with state := .BUSY }) (e := e) rfl
      (pos_iff_ne_zero.mp (hpos.trans_le hle)) hle hnone
    refine ⟨{ s with
      layer := { s.layer with state := .BUSY, releaseEvent := some e }, retrying := false }, ?_, ?_⟩
    · simp only [step, Layer.endRetry, if_pos hst, hocc]
      rfl
    · refine ⟨?_, fun _ _ => Option.some_ne_none e, nofun, ?_, nofun, nofun, h.peer, ?_, h.once,
        h.owes⟩
      · rintro e' ⟨⟩
        exact ⟨rfl, hf, by omega⟩
      · intro q hq
        rw [show s.forwarding = some q from hq] at hf
        cases hf
      · rintro (h' | ⟨h', -⟩) <;> cases h'
  · refine ⟨{ s with retrying := false }, ?_, ?_⟩
    · simp only [step, Layer.endRetry, if_neg hst]
      rfl
    · refine ⟨h.event, h.busy, fun _ => rfl, h.forwards, fun h' => absurd h' hst, h.waiting, h.peer,
        ?_, h.once, h.owes⟩
      rintro (h' | h')
      · cases h'
      · exact h.started (.inr h')

/-- **One step.**  No assert fails, and the invariant is kept. -/
theorem Tracked.step {op : LayerOp P} (h : s.Tracked) (hok : s.Polite op) :
    ∃ t, s.step op = .ok t ∧ t.Tracked := by
  cases op with
  | tryTiming p => exact h.tryTiming hok
  | succeededTiming e => exact h.succeededTiming hok
  | failedTiming e => exact h.failedTiming hok
  | releaseLayer => exact h.releaseLayer hok
  | recvRetry => exact h.recvRetry hok
  | sendRetryReturns e => exact h.sendRetryReturns hok
  | advance u =>
    obtain ⟨-, hlt, -⟩ := hok
    exact ⟨_, rfl, h.event, h.busy, h.idle, h.forwards, h.retry, h.waiting, h.peer,
      fun _ => Nat.zero_lt_of_lt hlt, h.once, h.owes⟩

theorem tracked_of_runs {ops : List (LayerOp P)}
    (h : Runs (Within LayerSystem.step Polite) ({} : LayerSystem P) ops s) : s.Tracked :=
  h.invariant_of_progress (fun _ _ hs hok => hs.step hok) tracked_init

end LayerSystem

/-- **The layer forgets no port.**  In every run no assert fails at the next call; a port that was
refused or failed and has not been sent a retry since is in exactly one waiting place, once; and
while no call is under way the layer is busy exactly if its release event is pending, and a port
waits for the layer only if that event or a retry of the peer is still to come. -/
theorem layer_forgets_no_port [DecidableEq P] {ops : List (LayerOp P)} {s : LayerSystem P}
    (h : Runs (Within LayerSystem.step LayerSystem.Polite) {} ops s) :
    (∀ op, s.Polite op → ∃ t, s.step op = .ok t) ∧
    (s.Settled → (s.layer.state = .BUSY ↔ s.layer.releaseEvent.isSome = true)) ∧
    (s.layer.waitingForPeer.toList ++ s.layer.waitingForLayer).Nodup ∧
    (∀ p, s.owed p = true ↔ s.layer.waitingForPeer = some p ∨ p ∈ s.layer.waitingForLayer) ∧
    (s.Settled → s.layer.waitingForLayer ≠ [] →
      s.layer.state = .BUSY ∧ s.layer.releaseEvent.isSome = true ∨
      s.layer.waitingForPeer.isSome = true ∧ s.peerOwes = true) := by
  have hs := LayerSystem.tracked_of_runs h
  refine ⟨?_, ?_, hs.once, ?_, ?_⟩
  · intro op hok
    obtain ⟨t, ht, -⟩ := hs.step hok
    exact ⟨t, ht⟩
  · rintro ⟨hf, -⟩
    constructor
    · intro hb
      exact Option.isSome_iff_ne_none.mpr (hs.busy hb hf)
    · intro he
      obtain ⟨e, he⟩ := Option.isSome_iff_exists.mp he
      exact (hs.event e he).1
  · intro p
    rw [hs.owes p, mem_append, Option.mem_toList]
  · rintro ⟨hf, hret⟩ hw
    cases hst : s.layer.state with
    | IDLE =>
      right
      have hpeer : s.layer.waitingForPeer.isSome = true := by
        rw [Option.isSome_iff_ne_none]
        exact fun hnone => hw (hs.waiting hst hnone)
      exact ⟨hpeer, by rw [hs.peer, hpeer]⟩
    | BUSY => exact .inl ⟨rfl, Option.isSome_iff_ne_none.mpr (hs.busy hst hf)⟩
    | RETRY =>
      rw [(hs.retry hst).1] at hret
      cases hret

/-- Port 1 is refused while the packet of port 0 is being forwarded; the peer fails that packet and
asks for it again, and port 0 comes back from inside `sendRetry`. -/
theorem layer_forgets_no_port_reentrant :
    ∃ s : LayerSystem ℕ, Runs (Within LayerSystem.step LayerSystem.Polite) {}
        [.tryTiming 0, .tryTiming 1, .failedTiming 10, .advance 10, .releaseLayer, .recvRetry,
          .tryTiming 0, .succeededTiming 20, .sendRetryReturns 10] s ∧
      (s.layer.waitingForLayer = [1] ∧ s.owed 1 = true ∧ s.layer.releaseEvent = some 20) ∧
      (∀ op, s.Polite op → ∃ t, s.step op = .ok t) ∧
      (s.Settled → (s.layer.state = .BUSY ↔ s.layer.releaseEvent.isSome = true)) ∧
      (s.layer.waitingForPeer.toList ++ s.layer.waitingForLayer).Nodup ∧
      (∀ p, s.owed p = true ↔ s.layer.waitingForPeer = some p ∨ p ∈ s.layer.waitingForLayer) ∧
      (s.Settled → s.layer.waitingForLayer ≠ [] →
        s.layer.state = .BUSY ∧ s.layer.releaseEvent.isSome = true ∨
        s.layer.waitingForPeer.isSome = true ∧ s.peerOwes = true) := by
  refine exists_runs_and_of_execWithin (by decide +kernel) ?_
  intro s hrun _
  exact layer_forgets_no_port hrun
