/-
# Clock edges under frequency scaling

A `ClockedObject` (`src/sim/clocked_object.hh`) caches the tick and the number of
its next clock edge and moves both forward when it is asked.  The period is that
of its clock domain (`src/sim/clock_domain.cc`): a source domain, whose period can
be set, or a domain derived from another one by a divider.  Before a period
changes, every object in the domain is aligned to the current tick.

After that the cached edge is an edge of the old clock.  It can be further away
than a period of the new one, and until the time has come close to it `clockEdge`
returns a tick beyond the documented range (`clock_edge_after_scaling`).  The range
is kept exactly when a change finds every object less than a new period before its
next edge (`ClockSystem.Timely`).

Ticks, cycles and periods are numbers of 64 bits, and sums and products wrap around.  A
derived period can wrap to zero, and then `update` divides by zero.  Dividers are
positive by type; `fatal` is an error.

* `ObjectClock.update`    — the lazy update, which is `advance` by the edges passed.
* `ObjectClock.Fits`      — nothing wraps around when the object is updated.
* `ClockDomain`           — a domain with its members and the domains derived from it.
* `ClockSystem.nextEdge`  — the next edge of an object, whatever is cached.
-/
import Mathlib
import Gem5.TransitionSystem

/-! ## Clocked objects -/

/-- What a `ClockedObject` caches: the tick of the next clock edge at the last update, and its
number. -/
structure ObjectClock where
  tick : ℕ := 0
  cycle : ℕ := 0
  deriving DecidableEq, Repr

/-- `divCeil` of two ticks. -/
def divCeil (a b : ℕ) : ℕ := (a + b - 1) % 2 ^ 64 / b

namespace ObjectClock

variable (o : ObjectClock)

/-- Align the object to the next clock edge. -/
def update (curTick clockPeriod : ℕ) : ObjectClock :=
  if curTick ≤ o.tick then o
  else
    -- the common case: a single period
    let tick := (o.tick + clockPeriod) % 2 ^ 64
    let cycle := (o.cycle + 1) % 2 ^ 64
    if curTick ≤ tick then { tick, cycle }
    else
      let elapsedCycles := divCeil (curTick - tick) clockPeriod
      { cycle := (cycle + elapsedCycles) % 2 ^ 64
        tick := (tick + elapsedCycles * clockPeriod) % 2 ^ 64 }

/-- The division of `update` is one by zero. -/
def isUndefined (curTick clockPeriod : ℕ) : Bool := decide (clockPeriod = 0 ∧ o.tick < curTick)

/-- The tick of the edge `cycles` after the next one. -/
def clockEdge (curTick clockPeriod cycles : ℕ) : ℕ :=
  ((o.update curTick clockPeriod).tick + clockPeriod * cycles) % 2 ^ 64

/-- The number of the next edge. -/
def curCycle (curTick clockPeriod : ℕ) : ℕ :=
  (o.update curTick clockPeriod).cycle

/-- The edge after the next one. -/
def nextCycle (curTick clockPeriod : ℕ) : ℕ :=
  o.clockEdge curTick clockPeriod 1

/-- The edge `k` edges later. -/
def advance (clockPeriod k : ℕ) : ObjectClock where
  tick := o.tick + k * clockPeriod
  cycle := o.cycle + k

/-- An update at `curTick` stays within 64 bits. -/
structure Fits (curTick clockPeriod : ℕ) : Prop where
  pos : 0 < clockPeriod
  le : curTick + clockPeriod ≤ 2 ^ 64
  tick_lt : o.tick < 2 ^ 64
  cycle_le : o.cycle ≤ o.tick

variable {o : ObjectClock} {t u p : ℕ}

theorem advance_zero (o : ObjectClock) (p : ℕ) : o.advance p 0 = o := by
  simp [advance]

theorem advance_advance (o : ObjectClock) (p j k : ℕ) :
    (o.advance p j).advance p k = o.advance p (j + k) := by
  simp only [advance, mk.injEq]
  constructor
  · ring
  · ring

/-- `divCeil` is the least number of periods that covers the distance. -/
theorem divCeil_spec {a : ℕ} (hp : 0 < p) (h : a + p ≤ 2 ^ 64) :
    a ≤ divCeil a p * p ∧ divCeil a p * p < a + p := by
  have hdiv := Nat.div_add_mod (a + p - 1) p
  have hmod := Nat.mod_lt (a + p - 1) hp
  rw [divCeil, Nat.mod_eq_of_lt (by omega), mul_comm]
  omega

/-- Without wrap-around the two fast paths and the division compute the same. -/
theorem update_eq_advance (h : o.Fits t p) :
    ∃ k, o.update t p = o.advance p k ∧ t ≤ (o.advance p k).tick ∧
      (k = 0 ∨ (o.advance p k).tick < t + p) := by
  obtain ⟨hp, hle, -, hcycle⟩ := h
  rw [update]
  by_cases h₀ : t ≤ o.tick
  · refine ⟨0, ?_, ?_, .inl rfl⟩
    · rw [if_pos h₀, advance_zero]
    · rw [advance_zero]
      exact h₀
  rw [if_neg h₀, Nat.mod_eq_of_lt (a := o.tick + p) (by omega),
    Nat.mod_eq_of_lt (a := o.cycle + 1) (by omega)]
  by_cases h₁ : t ≤ o.tick + p
  · refine ⟨1, ?_, ?_, .inr ?_⟩
    · simp [if_pos h₁, advance]
    · simp only [advance]
      omega
    · simp only [advance]
      omega
  · obtain ⟨hge, hlt⟩ := divCeil_spec (a := t - (o.tick + p)) hp (by omega)
    have hmul := Nat.le_mul_of_pos_right (divCeil (t - (o.tick + p)) p) hp
    refine ⟨1 + divCeil (t - (o.tick + p)) p, ?_, ?_, .inr ?_⟩
    · simp only [if_neg h₁, advance, mk.injEq]
      rw [Nat.mod_eq_of_lt (by omega), Nat.mod_eq_of_lt (by omega)]
      constructor
      · ring
      · ring
    · simp only [advance, add_mul, one_mul]
      omega
    · simp only [advance, add_mul, one_mul]
      omega

theorem update_of_le (h : t ≤ o.tick) : o.update t p = o := by
  rw [update, if_pos h]

theorem le_update_tick (h : o.Fits t p) : t ≤ (o.update t p).tick := by
  obtain ⟨k, hk, hle, -⟩ := update_eq_advance h
  rw [hk]
  exact hle

/-- An earlier update fits as well. -/
theorem Fits.mono (h : o.Fits u p) (htu : t ≤ u) : o.Fits t p :=
  { h with le := (Nat.add_le_add_right htu p).trans h.le }

/-- The updated object is as good as the old one, for any tick and period that fit. -/
theorem Fits.update {q : ℕ} (h : o.Fits t p) (hq : 0 < q) (hle : u + q ≤ 2 ^ 64) :
    (o.update t p).Fits u q := by
  obtain ⟨k, hk, -, hk'⟩ := update_eq_advance h
  have hmul := Nat.le_mul_of_pos_right k h.pos
  have hfit := h.le
  have htick := h.tick_lt
  have hcycle := h.cycle_le
  rw [hk]
  refine ⟨hq, hle, ?_, ?_⟩
  · rcases hk' with rfl | hlt
    · rwa [advance_zero]
    · omega
  · simp only [advance]
    omega

/-- An update at the same tick changes nothing, whatever the period has become. -/
theorem update_update (h : o.Fits t p) (q : ℕ) :
    (o.update t p).update t q = o.update t p :=
  update_of_le (le_update_tick h)

/-- Edges that are passed over without a call are counted by the next one. -/
theorem update_update_of_le (h : o.Fits u p) (htu : t ≤ u) :
    (o.update t p).update u p = o.update u p := by
  obtain ⟨j, hj, hjle, hj'⟩ := update_eq_advance (h.mono htu)
  obtain ⟨k, hk, hkle, hk'⟩ := update_eq_advance ((h.mono htu).update h.pos h.le)
  obtain ⟨m, hm, hmle, hm'⟩ := update_eq_advance h
  rw [hk, hj, advance_advance, hm]
  rw [hj, advance_advance] at hkle hk'
  -- both are the first edge from `u` on
  simp only [advance] at hjle hj' hkle hk' hmle hm'
  have heq : j + k = m := by
    apply le_antisymm
    · by_contra hlt
      have hmul : (m + 1) * p ≤ (j + k) * p := Nat.mul_le_mul_right _ (by omega)
      rw [add_mul] at hmul
      rcases hk' with rfl | hk'
      · rcases hj' with rfl | hj'
        · omega
        · rw [add_zero] at hmul
          omega
      · omega
    · by_contra hlt
      have hmul : (j + k + 1) * p ≤ m * p := Nat.mul_le_mul_right _ (by omega)
      rw [add_mul] at hmul
      rcases hm' with rfl | hm'
      · omega
      · omega
  rw [heq]

/-- The next edge itself. -/
theorem clockEdge_zero (h : o.Fits t p) : o.clockEdge t p 0 = (o.update t p).tick := by
  rw [clockEdge, mul_zero, add_zero]
  exact Nat.mod_eq_of_lt (h.update h.pos h.le).tick_lt

/-- Later edges are in the documented range if the next one is. -/
theorem clockEdge_mem {c : ℕ} (h : o.Fits t p) (hc : t + (c + 1) * p ≤ 2 ^ 64)
    (hlt : (o.update t p).tick < t + p) :
    t + c * p ≤ o.clockEdge t p c ∧ o.clockEdge t p c < t + (c + 1) * p := by
  have hle := le_update_tick h
  rw [add_mul, one_mul] at hc
  rw [clockEdge, mul_comm p c, Nat.mod_eq_of_lt (by omega), add_mul]
  exact ⟨by omega, by omega⟩

end ObjectClock

/-! ## Clock domains -/

/-- A clock domain, with the objects registered with it and the domains derived from it.  The
divider of a source domain is not used. -/
inductive ClockDomain
  | mk (clockPeriod : ℕ) (clockDivider : ℕ+) (members : List ObjectClock)
      (children : List ClockDomain)

namespace ClockDomain

/-- `_clockPeriod`. -/
def clockPeriod : ClockDomain → ℕ
  | mk clockPeriod _ _ _ => clockPeriod

/-- The divider of a derived domain. -/
def clockDivider : ClockDomain → ℕ+
  | mk _ clockDivider _ _ => clockDivider

/-- The objects registered with the domain. -/
def members : ClockDomain → List ObjectClock
  | mk _ _ members _ => members

/-- The domains derived from it. -/
def children : ClockDomain → List ClockDomain
  | mk _ _ _ children => children

mutual

/-- `DerivedClockDomain::updateClockPeriod`: align the members, take the period from the parent
and pass it on. -/
def updateClockPeriod (curTick parentPeriod : ℕ) : ClockDomain → ClockDomain
  | mk period divider members children =>
    mk (parentPeriod * divider % 2 ^ 64) divider (members.map (·.update curTick period))
      (updateChildren curTick (parentPeriod * divider % 2 ^ 64) children)

/-- The loop over the derived domains. -/
def updateChildren (curTick parentPeriod : ℕ) : List ClockDomain → List ClockDomain
  | [] => []
  | c :: cs => updateClockPeriod curTick parentPeriod c :: updateChildren curTick parentPeriod cs

end

mutual

/-- The update of some object of the domain, or of one derived from it, divides by zero. -/
def isUndefined (curTick : ℕ) : ClockDomain → Bool
  | mk period _ members children =>
    members.any (·.isUndefined curTick period) || anyUndefined curTick children

/-- The same for a list of domains. -/
def anyUndefined (curTick : ℕ) : List ClockDomain → Bool
  | [] => false
  | c :: cs => isUndefined curTick c || anyUndefined curTick cs

end

/-- `SrcClockDomain::clockPeriod`. -/
def setClockPeriod (d : ClockDomain) (curTick clockPeriod : ℕ) : Except Abort ClockDomain :=
  if clockPeriod = 0 then .error .assertion
  else if d.isUndefined curTick then .error .undefined
  else
    .ok (mk clockPeriod d.clockDivider (d.members.map (·.update curTick d.clockPeriod))
      (updateChildren curTick clockPeriod d.children))

/-- The object with the number `i` in the domain that is reached over the children `path`,
with its clock period. -/
def find : ClockDomain → List ℕ → ℕ → Option (ℕ × ObjectClock)
  | d, [], i => d.members[i]?.map fun o => (d.clockPeriod, o)
  | d, k :: path, i => d.children[k]?.bind fun c => c.find path i

/-- The same object replaced by what it is after an update. -/
def updateMember (curTick : ℕ) : ClockDomain → List ℕ → ℕ → ClockDomain
  | mk p d members children, [], i => mk p d (members.modify i (·.update curTick p)) children
  | mk p d members children, k :: path, i =>
    mk p d members (children.modify k fun c => c.updateMember curTick path i)

/-- No object has been asked yet. -/
def Fresh (d : ClockDomain) : Prop := ∀ path i p o, d.find path i = some (p, o) → o = {}

/-- The period at the end of the path if it begins with the given one. -/
def scaledPeriod (p : ℕ) : List ClockDomain → List ℕ → ℕ
  | _, [] => p
  | cs, k :: path =>
    match cs[k]? with
    | some c => scaledPeriod (p * c.clockDivider % 2 ^ 64) c.children path
    | none => p

theorem updateChildren_eq_map (t p : ℕ) (cs : List ClockDomain) :
    updateChildren t p cs = cs.map (updateClockPeriod t p) := by
  induction cs with
  | nil => simp [updateChildren]
  | cons c cs ih => rw [updateChildren, ih, List.map_cons]

/-- A change of the period aligns the object with its old period. -/
theorem find_updateClockPeriod (t : ℕ) (path : List ℕ) (i : ℕ) :
    ∀ (p : ℕ) (d : ClockDomain),
      (updateClockPeriod t p d).find path i = (d.find path i).map fun x =>
        (scaledPeriod (p * d.clockDivider % 2 ^ 64) d.children path, x.2.update t x.1) := by
  induction path with
  | nil =>
    rintro p ⟨period, divider, members, children⟩
    simp only [updateClockPeriod, find, ClockDomain.members, clockPeriod, List.getElem?_map,
      Option.map_map, scaledPeriod, clockDivider]
    rfl
  | cons k path ih =>
    rintro p ⟨period, divider, members, children⟩
    simp only [updateClockPeriod, find, ClockDomain.children, updateChildren_eq_map,
      List.getElem?_map, scaledPeriod, clockDivider]
    cases hk : children[k]? with
    | none => rfl
    | some c =>
      simp only [Option.map_some, Option.bind_some]
      rw [ih]
      rfl

theorem find_updateMember (t : ℕ) (path : List ℕ) (i : ℕ) (path' : List ℕ) (i' : ℕ) :
    ∀ d : ClockDomain,
      (d.updateMember t path i).find path' i' = (d.find path' i').map fun x =>
        if path' = path ∧ i' = i then (x.1, x.2.update t x.1) else x := by
  induction path generalizing path' with
  | nil =>
    rintro ⟨p, divider, members, children⟩
    match path' with
    | [] =>
      simp only [updateMember, find, ClockDomain.members, clockPeriod, List.getElem?_modify,
        true_and, Option.map_map]
      rcases eq_or_ne i i' with rfl | hi
      · simp [Function.comp_def]
      · simp [hi, Ne.symm hi, Function.comp_def]
    | k :: path' =>
      simp [updateMember, find, ClockDomain.children]
  | cons k path ih =>
    rintro ⟨p, divider, members, children⟩
    match path' with
    | [] => simp [updateMember, find, ClockDomain.members, clockPeriod, Function.comp_def]
    | k' :: path' =>
      simp only [updateMember, find, ClockDomain.children, List.getElem?_modify]
      rcases eq_or_ne k k' with rfl | hk
      · cases hc : children[k]? with
        | none => simp
        | some c => simp [ih]
      · simp [hk, Ne.symm hk]

/-- What the new period of the source domain is for an object. -/
theorem find_setClockPeriod {d d' : ClockDomain} {t period : ℕ}
    (h : d.setClockPeriod t period = .ok d') :
    ∀ path i, d'.find path i = (d.find path i).map fun x =>
      (scaledPeriod period d.children path, x.2.update t x.1) := by
  obtain ⟨p, divider, members, children⟩ := d
  rw [setClockPeriod] at h
  split at h
  · cases h
  split at h
  · cases h
  cases h
  intro path i
  match path with
  | [] =>
    simp only [find, ClockDomain.members, clockPeriod, List.getElem?_map, Option.map_map,
      scaledPeriod]
    rfl
  | k :: path =>
    simp only [find, ClockDomain.children, updateChildren_eq_map, List.getElem?_map,
      scaledPeriod]
    cases hk : children[k]? with
    | none => rfl
    | some c =>
      simp only [Option.map_some, Option.bind_some, find_updateClockPeriod]
      rfl

end ClockDomain

/-! ## Runs -/

/-- The source domain and the current tick. -/
structure ClockSystem where
  domain : ClockDomain
  curTick : ℕ := 0

/-- The time moves on, an object is asked for its clock, or the period of the source domain is
set. -/
inductive ClockOp
  | advance (tick : ℕ)
  | call (path : List ℕ) (i : ℕ)
  | clockPeriod (period : ℕ)

namespace ClockSystem

variable (s : ClockSystem)

/-- `clockEdge`, `curCycle` and `nextCycle` have the same effect on the object. -/
def step : ClockOp → Except Abort ClockSystem
  | .advance tick =>
    if s.curTick ≤ tick then .ok { s with curTick := tick } else .error .assertion
  | .call path i =>
    if (s.domain.find path i).any fun x => x.2.isUndefined s.curTick x.1 then .error .undefined
    else .ok { s with domain := s.domain.updateMember s.curTick path i }
  | .clockPeriod period =>
    (s.domain.setClockPeriod s.curTick period).map fun domain => { s with domain }

/-- The period of an object and its next edge, whatever is cached. -/
def nextEdge (path : List ℕ) (i : ℕ) : Option (ℕ × ObjectClock) :=
  (s.domain.find path i).map fun x => (x.1, x.2.update s.curTick x.1)

/-- The step leaves every object with a positive period that, counted from the current tick, ends
within 64 bits. -/
def Fits : ClockOp → Prop
  | .advance tick => ∀ path i p o, s.domain.find path i = some (p, o) → tick + p ≤ 2 ^ 64
  | .call _ _ => True
  | .clockPeriod period =>
    ∀ path i p o, s.domain.find path i = some (p, o) →
      0 < ClockDomain.scaledPeriod period s.domain.children path ∧
        s.curTick + ClockDomain.scaledPeriod period s.domain.children path ≤ 2 ^ 64

/-- When the period changes, the clock of every object has an edge less than a new period
ahead. -/
def Timely (op : ClockOp) : Prop :=
  s.Fits op ∧
    match op with
    | .clockPeriod period =>
      ∀ path i p o, s.domain.find path i = some (p, o) →
        ∃ k, s.curTick ≤ o.tick + k * p ∧
          o.tick + k * p < s.curTick + ClockDomain.scaledPeriod period s.domain.children path
    | _ => True

/-- Every edge that is asked for now lies in the documented range, if that is within 64 bits. -/
def EdgesInRange : Prop :=
  ∀ path i p o, s.domain.find path i = some (p, o) → ∀ c, s.curTick + (c + 1) * p ≤ 2 ^ 64 →
    s.curTick + c * p ≤ o.clockEdge s.curTick p c ∧
      o.clockEdge s.curTick p c < s.curTick + (c + 1) * p

/-- A step after which the period of the object is `p`. -/
def Steady (path : List ℕ) (i p : ℕ) (s : ClockSystem) (op : ClockOp) (t : ClockSystem) : Prop :=
  Within step Fits s op t ∧ ∃ o, t.domain.find path i = some (p, o)

/-- Updates of all objects stay within 64 bits. -/
def Sound : Prop := ∀ path i p o, s.domain.find path i = some (p, o) → o.Fits s.curTick p

variable {s t : ClockSystem} {op : ClockOp} {path : List ℕ} {i p q : ℕ} {o e : ObjectClock}

theorem nextEdge_eq_some (h : s.domain.find path i = some (p, o)) :
    s.nextEdge path i = some (p, o.update s.curTick p) := by
  rw [nextEdge, h, Option.map_some]

theorem exists_of_nextEdge (h : s.nextEdge path i = some (p, e)) :
    ∃ o, s.domain.find path i = some (p, o) ∧ o.update s.curTick p = e := by
  rw [nextEdge, Option.map_eq_some_iff] at h
  obtain ⟨⟨p', o⟩, ho, heq⟩ := h
  obtain ⟨rfl, rfl⟩ := heq
  exact ⟨o, ho, rfl⟩

/-- The time moves on. -/
theorem step_advance {tick : ℕ} (h : s.step (.advance tick) = .ok t) :
    s.curTick ≤ tick ∧ t = { s with curTick := tick } := by
  rw [step] at h
  split at h
  · exact ⟨‹_›, (Except.ok.inj h).symm⟩
  · cases h

/-- A call updates the object it is made for. -/
theorem step_call {path' : List ℕ} {i' : ℕ} (h : s.step (.call path' i') = .ok t) :
    t.curTick = s.curTick ∧ ∀ path i, t.domain.find path i = (s.domain.find path i).map fun x =>
      if path = path' ∧ i = i' then (x.1, x.2.update s.curTick x.1) else x := by
  rw [step] at h
  split at h
  · cases h
  cases h
  exact ⟨rfl, fun path i => ClockDomain.find_updateMember _ _ _ _ _ _⟩

/-- A new period updates all objects. -/
theorem step_clockPeriod {period : ℕ} (h : s.step (.clockPeriod period) = .ok t) :
    t.curTick = s.curTick ∧ ∀ path i, t.domain.find path i = (s.domain.find path i).map fun x =>
      (ClockDomain.scaledPeriod period s.domain.children path, x.2.update s.curTick x.1) := by
  obtain ⟨d, hd, rfl⟩ := Except.bind_pure_eq_ok h
  exact ⟨rfl, ClockDomain.find_setClockPeriod hd⟩

theorem Sound.step (h : s.Sound) (hop : s.Fits op) (hstep : s.step op = .ok t) : t.Sound := by
  intro path i q o' ho'
  match op with
  | .advance tick =>
    obtain ⟨-, rfl⟩ := step_advance hstep
    exact { h path i q o' ho' with le := hop path i q o' ho' }
  | .call path' i' =>
    obtain ⟨hcur, hfind⟩ := step_call hstep
    rw [hfind, Option.map_eq_some_iff] at ho'
    obtain ⟨⟨p, o⟩, ho, heq⟩ := ho'
    have hfits := h path i p o ho
    rw [hcur]
    split at heq
    · cases heq
      exact hfits.update hfits.pos hfits.le
    · cases heq
      exact hfits
  | .clockPeriod period =>
    obtain ⟨hcur, hfind⟩ := step_clockPeriod hstep
    rw [hfind, Option.map_eq_some_iff] at ho'
    obtain ⟨⟨p, o⟩, ho, heq⟩ := ho'
    cases heq
    obtain ⟨hpos, hle⟩ := hop path i p o ho
    rw [hcur]
    exact (h path i p o ho).update hpos hle

/-- **One step**: the next edge moves on by whole periods, and if it moves it becomes the first
edge from the current tick on. -/
theorem nextEdge_step (h : s.Sound) (hop : s.Fits op) (hstep : s.step op = .ok t)
    (hs : s.nextEdge path i = some (p, e)) :
    s.curTick ≤ t.curTick ∧ ∃ q k, t.nextEdge path i = some (q, e.advance p k) ∧
      (k = 0 ∨ q = p ∧ (e.advance p k).tick < t.curTick + p) := by
  obtain ⟨o, ho, rfl⟩ := exists_of_nextEdge hs
  have hfits := h path i p o ho
  match op with
  | .advance tick =>
    obtain ⟨hle, rfl⟩ := step_advance hstep
    have hfits' : o.Fits tick p := { hfits with le := hop path i p o ho }
    obtain ⟨k, hk, -, hk'⟩ := ObjectClock.update_eq_advance (hfits.update hfits.pos hfits'.le)
    refine ⟨hle, p, k, ?_, hk'.imp_right fun h => ⟨rfl, h⟩⟩
    rw [← hk, ObjectClock.update_update_of_le hfits' hle]
    exact nextEdge_eq_some ho
  | .call path' i' =>
    obtain ⟨hcur, hfind⟩ := step_call hstep
    refine ⟨hcur.ge, p, 0, ?_, .inl rfl⟩
    rw [ObjectClock.advance_zero, nextEdge, hcur, hfind, ho]
    simp only [Option.map_some]
    split
    · rw [ObjectClock.update_update hfits]
    · rfl
  | .clockPeriod period =>
    obtain ⟨hcur, hfind⟩ := step_clockPeriod hstep
    refine ⟨hcur.ge, ClockDomain.scaledPeriod period s.domain.children path, 0, ?_, .inl rfl⟩
    rw [ObjectClock.advance_zero, nextEdge, hcur, hfind, ho]
    simp only [Option.map_some, ObjectClock.update_update hfits]

/-- The number of the next edge does not decrease, whatever happens to the period. -/
theorem runs_cycle_le {ls : List ClockOp} (h : Runs (Within step Fits) s ls t) (hsound : s.Sound)
    (hs : s.nextEdge path i = some (p, e)) :
    t.Sound ∧ ∃ q e', t.nextEdge path i = some (q, e') ∧ e.cycle ≤ e'.cycle := by
  refine h.invariant (P := fun u => u.Sound ∧ ∃ q e', u.nextEdge path i = some (q, e') ∧
    e.cycle ≤ e'.cycle) ?_ ⟨hsound, p, e, hs, le_rfl⟩
  rintro u op v ⟨hsound, q, e', hu, hle⟩ ⟨hop, hstep⟩
  obtain ⟨-, q', k, hv, -⟩ := nextEdge_step hsound hop hstep hu
  exact ⟨hsound.step hop hstep, q', _, hv, hle.trans (Nat.le_add_right _ k)⟩

/-- While the period of the object stays the same, its edges are numbered one after the other. -/
theorem runs_steady {ls : List ClockOp} (h : Runs (Steady path i p) s ls t) (hsound : s.Sound)
    (hs : s.nextEdge path i = some (p, e)) :
    t.Sound ∧ ∃ k, t.nextEdge path i = some (p, e.advance p k) ∧
      (k = 0 ∨ (e.advance p k).tick < t.curTick + p) := by
  refine h.invariant (P := fun u => u.Sound ∧ ∃ k, u.nextEdge path i = some (p, e.advance p k) ∧
    (k = 0 ∨ (e.advance p k).tick < u.curTick + p)) ?_ ⟨hsound, 0, ?_, .inl rfl⟩
  · rintro u op v ⟨hsound, k, hu, hk⟩ ⟨⟨hop, hstep⟩, o, ho⟩
    obtain ⟨hle, q, k', hv, hk'⟩ := nextEdge_step hsound hop hstep hu
    rw [ObjectClock.advance_advance] at hv hk'
    have hq : p = q := by
      rw [nextEdge_eq_some ho] at hv
      exact (Prod.mk.inj (Option.some.inj hv)).1
    subst hq
    refine ⟨hsound.step hop hstep, k + k', hv, ?_⟩
    rcases hk' with rfl | ⟨-, hlt⟩
    · rcases hk with rfl | hlt
      · exact .inl rfl
      · rw [add_zero]
        omega
    · exact .inr hlt
  · rw [ObjectClock.advance_zero]
    exact hs

/-- In terms of the next edge, `c` does not matter. -/
theorem Sound.edgesInRange_iff (h : s.Sound) :
    s.EdgesInRange ↔ ∀ path i p e, s.nextEdge path i = some (p, e) → e.tick < s.curTick + p := by
  constructor
  · intro hr path i p e he
    obtain ⟨o, ho, rfl⟩ := exists_of_nextEdge he
    have hfits := h path i p o ho
    have hzero := hr path i p o ho 0 (by rw [zero_add, one_mul]; exact hfits.le)
    rw [ObjectClock.clockEdge_zero hfits, zero_add, one_mul] at hzero
    exact hzero.2
  · intro hr path i p o ho c hc
    exact ObjectClock.clockEdge_mem (h path i p o ho) hc (hr path i p _ (nextEdge_eq_some ho))

/-- An edge of the old clock in the window is not before the next one. -/
theorem update_tick_lt_iff {t : ℕ} (h : o.Fits t p) (n : ℕ) :
    (o.update t p).tick < t + n ↔ ∃ k, t ≤ o.tick + k * p ∧ o.tick + k * p < t + n := by
  obtain ⟨j, hj, hle, hj'⟩ := ObjectClock.update_eq_advance h
  rw [hj]
  constructor
  · intro h
    exact ⟨j, hle, h⟩
  · rintro ⟨k, hk, hlt⟩
    refine lt_of_le_of_lt ?_ hlt
    simp only [ObjectClock.advance] at hj' ⊢
    apply Nat.add_le_add_left
    apply Nat.mul_le_mul_right
    by_contra hkj
    have hmul : (k + 1) * p ≤ j * p := Nat.mul_le_mul_right _ (by omega)
    rw [add_mul] at hmul
    rcases hj' with rfl | hj'
    · omega
    · omega

/-- The range is kept by every step that is timely, and by no other change of the period. -/
theorem edgesInRange_step_iff (h : s.Sound) (hs : s.EdgesInRange) (hop : s.Fits op)
    (hstep : s.step op = .ok t) : t.EdgesInRange ↔ s.Timely op := by
  rw [h.edgesInRange_iff] at hs
  rw [(h.step hop hstep).edgesInRange_iff]
  match op with
  | .advance tick =>
    refine iff_of_true ?_ ⟨hop, trivial⟩
    intro path i q e' he'
    obtain ⟨hle, rfl⟩ := step_advance hstep
    obtain ⟨o, ho, rfl⟩ := exists_of_nextEdge he'
    have hnow := nextEdge_eq_some (s := s) ho
    obtain ⟨-, q', k, hk, hk'⟩ := nextEdge_step h hop hstep hnow
    rw [he'] at hk
    obtain ⟨rfl, heq⟩ := Prod.mk.inj (Option.some.inj hk)
    rw [heq]
    rcases hk' with rfl | ⟨-, hlt⟩
    · rw [ObjectClock.advance_zero]
      exact (hs path i q _ hnow).trans_le (Nat.add_le_add_right hle _)
    · exact hlt
  | .call path' i' =>
    refine iff_of_true ?_ ⟨hop, trivial⟩
    obtain ⟨hcur, hfind⟩ := step_call hstep
    intro path i q e' he'
    rw [hcur]
    apply hs path i q e'
    rw [← he', nextEdge, nextEdge, hcur, hfind]
    cases ho : s.domain.find path i with
    | none => rfl
    | some x =>
      simp only [Option.map_some]
      split
      · rw [ObjectClock.update_update (h path i x.1 x.2 ho)]
      · rfl
  | .clockPeriod period =>
    obtain ⟨hcur, hfind⟩ := step_clockPeriod hstep
    have hnext : ∀ path i p o, s.domain.find path i = some (p, o) → t.nextEdge path i =
        some (ClockDomain.scaledPeriod period s.domain.children path, o.update s.curTick p) := by
      intro path i p o ho
      rw [nextEdge, hcur, hfind, ho, Option.map_some, Option.map_some,
        ObjectClock.update_update (h path i p o ho)]
    rw [hcur]
    constructor
    · intro hr
      refine ⟨hop, fun path i p o ho => ?_⟩
      rw [← update_tick_lt_iff (h path i p o ho)]
      exact hr path i _ _ (hnext path i p o ho)
    · rintro ⟨-, hwindow⟩ path i q e he
      obtain ⟨o', ho', -⟩ := exists_of_nextEdge he
      rw [hfind, Option.map_eq_some_iff] at ho'
      obtain ⟨⟨p, o⟩, ho, -⟩ := ho'
      rw [hnext path i p o ho] at he
      cases he
      exact (update_tick_lt_iff (h path i p o ho) _).mpr (hwindow path i p o ho)

/-- **Clock edges under frequency scaling**: if every change of the period is timely, every edge
lies in the documented range; and as long as the ticks stay within 64 bits, cycles never decrease,
and while its period stays the same the edges of an object are whole periods and as many cycles
apart. -/
theorem clock_edges_under_scaling {d : ClockDomain} (hd : d.Fresh)
    (hperiod : ∀ path i p o, d.find path i = some (p, o) → 0 < p ∧ p ≤ 2 ^ 64)
    {ls : List ClockOp} (h : Runs (Within step Timely) { domain := d } ls s) :
    s.EdgesInRange ∧ ∀ path i p o, s.domain.find path i = some (p, o) →
      (∀ ls' t q o', Runs (Within step Fits) s ls' t → t.domain.find path i = some (q, o') →
        o.curCycle s.curTick p ≤ o'.curCycle t.curTick q) ∧
      ∀ ls' t, Runs (Steady path i p) s ls' t → ∃ o' k, t.domain.find path i = some (p, o') ∧
        o'.clockEdge t.curTick p 0 = o.clockEdge s.curTick p 0 + k * p ∧
        o'.curCycle t.curTick p = o.curCycle s.curTick p + k ∧
        (t.curTick ≤ o.clockEdge s.curTick p 0 + p → k ≤ 1) := by
  have hinit : Sound { domain := d } := by
    intro path i p o ho
    obtain rfl := hd path i p o ho
    obtain ⟨hpos, hle⟩ := hperiod path i p _ ho
    exact ⟨hpos, by rwa [zero_add], by decide, le_rfl⟩
  obtain ⟨hsound, hrange⟩ : s.Sound ∧ s.EdgesInRange := by
    refine h.invariant (P := fun s => s.Sound ∧ s.EdgesInRange) ?_ ⟨hinit, ?_⟩
    · rintro s op t ⟨hsound, hs⟩ ⟨htimely, hstep⟩
      exact ⟨hsound.step htimely.1 hstep,
        (edgesInRange_step_iff hsound hs htimely.1 hstep).mpr htimely⟩
    · rw [hinit.edgesInRange_iff]
      intro path i p e he
      obtain ⟨o, ho, rfl⟩ := exists_of_nextEdge he
      have hpos := (hinit path i p o ho).pos
      obtain rfl := hd path i p o ho
      rw [ObjectClock.update_of_le (Nat.zero_le _)]
      exact Nat.lt_add_left _ hpos
  refine ⟨hrange, ?_⟩
  intro path i p o ho
  have hnow := nextEdge_eq_some ho
  constructor
  · intro ls' t q o' hrun ho'
    obtain ⟨-, q', e', he', hle⟩ := runs_cycle_le hrun hsound hnow
    rw [nextEdge_eq_some ho'] at he'
    cases he'
    exact hle
  · intro ls' t hrun
    obtain ⟨hsound', k, hk, hk'⟩ := runs_steady hrun hsound hnow
    obtain ⟨o', ho', heq⟩ := exists_of_nextEdge hk
    rw [ObjectClock.clockEdge_zero (hsound path i p o ho)]
    refine ⟨o', k, ho', ?_, ?_, ?_⟩
    · rw [ObjectClock.clockEdge_zero (hsound' path i p o' ho'), heq]
      rfl
    · rw [ObjectClock.curCycle, heq]
      rfl
    · intro hle
      rcases hk' with rfl | hlt
      · exact Nat.zero_le 1
      · simp only [ObjectClock.advance] at hlt
        by_contra hk2
        have hmul : 2 * p ≤ k * p := Nat.mul_le_mul_right _ (by omega)
        omega

/-- A source domain of period 10 and one derived from it by 2, with an object each. -/
def twoDomains : ClockDomain := .mk 10 1 [{}] [.mk 20 (Nat.succPNat 1) [{}] []]

/-- Its objects. -/
theorem find_twoDomains (h : twoDomains.find path i = some (p, o)) :
    o = {} ∧ (path = [] ∧ p = 10 ∨ path = [0] ∧ p = 20) := by
  obtain _ | ⟨_ | k, _ | ⟨k', path⟩⟩ := path <;> obtain _ | i := i
  all_goals simp_all [ClockDomain.find, ClockDomain.members, ClockDomain.children,
    ClockDomain.clockPeriod, twoDomains]

/-- The period of the source goes to 4 at tick 20, where both domains have an edge. -/
theorem clock_edges_under_scaling_at_edge :
    ∃ s, Runs (Within step Timely) { domain := twoDomains }
      [.advance 20, .clockPeriod 4, .advance 21] s ∧ s.EdgesInRange := by
  have htimely₁ : Timely { domain := twoDomains } (.advance 20) := by
    refine ⟨fun path i p o ho => ?_, trivial⟩
    obtain ⟨-, ⟨-, rfl⟩ | ⟨-, rfl⟩⟩ := find_twoDomains ho <;> decide
  have htimely₂ : Timely { domain := twoDomains, curTick := 20 } (.clockPeriod 4) := by
    constructor
    · intro path i p o ho
      obtain ⟨-, ⟨rfl, -⟩ | ⟨rfl, -⟩⟩ := find_twoDomains ho <;> decide
    · intro path i p o ho
      obtain ⟨rfl, ⟨rfl, rfl⟩ | ⟨rfl, rfl⟩⟩ := find_twoDomains ho
      · exact ⟨2, by decide⟩
      · exact ⟨1, by decide⟩
  obtain ⟨u, hu⟩ : ∃ u, step { domain := twoDomains, curTick := 20 } (.clockPeriod 4) = .ok u :=
    ⟨_, rfl⟩
  have htimely₃ : u.Timely (.advance 21) := by
    refine ⟨fun path i p o ho => ?_, trivial⟩
    rw [(step_clockPeriod hu).2, Option.map_eq_some_iff] at ho
    obtain ⟨⟨p', o'⟩, ho, heq⟩ := ho
    cases heq
    obtain ⟨-, ⟨rfl, -⟩ | ⟨rfl, -⟩⟩ := find_twoDomains ho <;> decide
  have hadvance : u.step (.advance 21) = .ok { u with curTick := 21 } :=
    if_pos ((step_clockPeriod hu).1 ▸ by decide)
  have hrun : Runs (Within step Timely) { domain := twoDomains }
      [.advance 20, .clockPeriod 4, .advance 21] { u with curTick := 21 } :=
    .cons ⟨htimely₁, rfl⟩ (.cons ⟨htimely₂, hu⟩ (.single ⟨htimely₃, hadvance⟩))
  refine ⟨_, hrun, (clock_edges_under_scaling (fun path i p o ho => (find_twoDomains ho).1)
    (fun path i p o ho => ?_) hrun).1⟩
  obtain ⟨-, ⟨-, rfl⟩ | ⟨-, rfl⟩⟩ := find_twoDomains ho <;> decide

/-- The period goes from 10 to 2 at tick 1, and the next edge is still the one at 10. -/
theorem clock_edge_after_scaling :
    (ClockDomain.mk 10 1 [{}] []).Fresh ∧ ∃ s, Runs (Within step Anytime)
      { domain := .mk 10 1 [{}] [] } [.advance 1, .clockPeriod 2] s ∧ ¬ s.EdgesInRange := by
  refine ⟨?_, _, .cons ⟨trivial, rfl⟩ (.single ⟨trivial, rfl⟩), ?_⟩
  · rintro (_ | ⟨k, path⟩) (_ | i) p o ho
    all_goals simp_all [ClockDomain.find, ClockDomain.members, ClockDomain.children]
  · intro h
    have := h [] 0 2 ⟨10, 1⟩ rfl 0 (by decide)
    revert this
    decide

end ClockSystem
