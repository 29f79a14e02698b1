/-
# Request accounting in MSI

Every state of an L1 says which messages of its own are still outstanding; the
table is `CacheState.tally`.  `Line.Accounted` states that the messages in the
buffers and in flight are those, for every L1, and every step keeps it, in
whatever order messages are delivered: no request is lost.  That none is left
over, an upper bound on the own GETMs, holds in runs in which no answer overtakes
its request (`Line.Late`); the parameter `late` says whether it is included.

* `L1.undelivered`, `L1.undeliveredPutm` — own requests queued or on the bus and
  not yet seen by the L1 itself.
* `L1.promised`, `Dir.promised`          — data on its way: a data request that
  is queued, waits at the directory or at the memory, or has been answered.
-/
import Gem5.Counting
import Gem5.Machine
import Gem5.MsiSteps

open List

open Function

variable {n : ℕ} {β : Type} {late : Prop}

/-! ## Outstanding messages -/

/-- Own requests with type `p` that the L1 itself has not seen: queued or on the bus. -/
def L1.undelivered (c : Fin n) (p : CoherenceRequestType → Bool) (l : L1 n β) : ℕ :=
  l.requestFromCache.countP (fun q => p q.type) +
    l.requestToCache.countP (fun m => decide (m.requestor = c) && p m.type)

/-- Own PUTMs that the L1 itself has not seen. -/
def L1.undeliveredPutm (c : Fin n) (l : L1 n β) : ℕ :=
  l.requestFromCacheWB + l.requestToCacheWB.countP (fun m => decide (m.requestor = c))

/-- Data the L1 is promised on its own side: data requests queued and answers arrived. -/
def L1.promised (l : L1 n β) : ℕ :=
  l.requestFromCache.countP (fun q => q.type.wantsData) + l.responseToCache.length

/-- The message asks for data for `c`. -/
def RequestMsg.wantsDataFor (c : Fin n) (m : RequestMsg n) : Bool :=
  decide (m.requestor = c) && m.type.wantsData

/-- The memory access reads for `c`. -/
def MemoryRequest.isReadFor (c : Fin n) : MemoryRequest n β → Bool
  | .read q => decide (q = c)
  | .write _ => false

/-- The memory's answer carries data for `c`. -/
def MemoryResponse.isDataFor (c : Fin n) : MemoryResponse n β → Bool
  | .data q _ => decide (q = c)
  | .ack => false

/-- Data promised to `c` at the directory: requests waiting there, fetches and their answers. -/
def Dir.promised (d : Dir n β) (c : Fin n) : ℕ :=
  d.requestToDir.countP (RequestMsg.wantsDataFor c) + d.stalled.countP (RequestMsg.wantsDataFor c) +
    d.requestToMemory.countP (MemoryRequest.isReadFor c) +
    d.responseFromMemory.countP (MemoryResponse.isDataFor c)

/-- A GETS or GETI. -/
def CoherenceRequestType.isGets (t : CoherenceRequestType) : Bool := t == .GETS || t == .GETI

/-- The messages a state has outstanding. -/
structure Tally where
  putm : ℕ := 0
  upg : ℕ := 0
  gets : ℕ := 0
  getmLeast : ℕ := 0
  getmMost : ℕ := 0
  data : ℕ := 0
  deriving DecidableEq

/-- The messages of its own that an L1 has outstanding.  In `IM_D` and its successors the L1
may or may not have seen its GETM: they are entered on the own GETM, but also from `IM_W` and
on a locked read in `I`, when the GETM is only issued. -/
def CacheState.tally : CacheState → Tally
  | MI_A | MS_A => { putm := 1 }
  | SM_W | IM_W | SM_WL | IM_WL => { upg := 1 }
  | IS_AD => { gets := 1, data := 1 }
  | IS_D | IS_DI => { data := 1 }
  | IS_A => { gets := 1 }
  | IM_AD => { getmLeast := 1, getmMost := 1, data := 1 }
  | IM_A => { getmLeast := 1, getmMost := 1 }
  | IM_D | IM_DS | IM_DI | IM_DL => { getmMost := 1, data := 1 }
  | _ => {}

/-- Whatever fits `a` fits `b`. -/
def Tally.Covers (b a : Tally) : Prop :=
  b.putm = a.putm ∧ b.upg = a.upg ∧ b.gets = a.gets ∧ b.getmLeast ≤ a.getmLeast ∧
    a.getmMost ≤ b.getmMost

instance (b a : Tally) : Decidable (b.Covers a) := inferInstanceAs (Decidable (_ ∧ _))

/-- The buffers of the L1 hold the messages `a`. -/
structure L1.Counts (late : Prop) (c : Fin n) (l : L1 n β) (a : Tally) : Prop where
  putm : l.undeliveredPutm c = a.putm
  upg : l.undelivered c (· == .UPG) = a.upg
  gets : l.undelivered c CoherenceRequestType.isGets = a.gets
  getmLeast : a.getmLeast ≤ l.undelivered c (· == .GETM)
  getmMost : late → l.undelivered c (· == .GETM) ≤ a.getmMost

/-- The buffers of the L1 hold what its state says. -/
structure L1.Tallied (late : Prop) (c : Fin n) (l : L1 n β) : Prop where
  ok : l.Ok
  typed : L1.Typed c l
  counts : L1.Counts late c l l.state.tally

/-- **The accounting invariant.** -/
structure Line.Accounted (late : Prop) (s : Line n β) : Prop where
  core : ∀ c, (s.cores c).Tallied late c
  dir : s.dir.Typed
  promised : ∀ c, (s.cores c).promised + s.dir.promised c = (s.cores c).state.tally.data

/-! ## Counting -/

section Counting

variable {c : Fin n} {l l' : L1 n β} {i : ℕ} {m : RequestMsg n}

variable (p : CoherenceRequestType → Bool)

/-- A new request is undelivered. -/
theorem L1.undelivered_issue (q : QueuedRequest)
    (hq : l'.requestFromCache = l.requestFromCache ++ [q])
    (hd : l'.requestToCache = l.requestToCache) :
    l'.undelivered c p = l.undelivered c p + if p q.type then 1 else 0 := by
  simp only [L1.undelivered, hq, hd, countP_append, countP_singleton]
  omega

/-- A request of another core does not count. -/
theorem L1.undelivered_snoop (hm : l.requestToCache[i]? = some m)
    (hc : m.requestor ≠ c) (hq : l'.requestFromCache = l.requestFromCache)
    (hd : l'.requestToCache = l.requestToCache.eraseIdx i) :
    l'.undelivered c p = l.undelivered c p := by
  have he := countP_eraseIdx_add (fun m => decide (m.requestor = c) && p m.type) hm
  simp only [hc, decide_false, Bool.false_and, Bool.false_eq_true, if_false] at he
  simp only [L1.undelivered, hq, hd]
  omega

/-- An own request counts until it is seen. -/
theorem L1.undelivered_own (hm : l.requestToCache[i]? = some m)
    (hc : m.requestor = c) (hq : l'.requestFromCache = l.requestFromCache)
    (hd : l'.requestToCache = l.requestToCache.eraseIdx i) :
    l'.undelivered c p + (if p m.type then 1 else 0) = l.undelivered c p := by
  have he := countP_eraseIdx_add (fun m => decide (m.requestor = c) && p m.type) hm
  simp only [hc, decide_true, Bool.true_and] at he
  simp only [L1.undelivered, hq, hd]
  omega

/-- Waking stalled requests, which are those of others, does not change the count. -/
theorem L1.undelivered_wake (ht : L1.Typed c l) (p : CoherenceRequestType → Bool)
    {ms : List (RequestMsg n)} (hms : ms ⊆ l.stalled)
    (hq : l'.requestFromCache = l.requestFromCache)
    (hd : l'.requestToCache = l.requestToCache ++ ms) :
    l'.undelivered c p = l.undelivered c p := by
  have he : ms.countP (fun m => decide (m.requestor = c) && p m.type) = 0 := by
    rw [countP_eq_zero]
    intro m hm
    simp [(ht.stalled m (hms hm)).1]
  simp only [L1.undelivered, hq, hd, countP_append, he]
  omega

theorem L1.woken_subset (l : L1 n β) : l.woken ⊆ l.stalled := by
  unfold L1.woken
  split
  · exact Subset.refl _
  · exact nil_subset _

theorem L1.orphans_subset (l : L1 n β) : l.orphans ⊆ l.stalled := by
  unfold L1.orphans
  split
  · exact nil_subset _
  · exact Subset.refl _

theorem L1.promised_issue (q : QueuedRequest)
    (hq : l'.requestFromCache = l.requestFromCache ++ [q])
    (hr : l'.responseToCache = l.responseToCache) :
    l'.promised = l.promised + if q.type.wantsData then 1 else 0 := by
  simp only [L1.promised, hq, hr, countP_append, countP_singleton]
  omega

end Counting

/-! ## The transitions of an L1 -/

section Transitions

variable {c : Fin n} {l l' : L1 n β} {x : Firing n β} {a : Tally}

/-- The L1 asks for data exactly when it starts to wait for it. -/
def L1.Conserves (l l' : L1 n β) : Prop :=
  l'.promised + l.state.tally.data = l.promised + l'.state.tally.data

namespace L1.Counts

theorem congr (h : L1.Counts late c l a) (hu : ∀ p, l'.undelivered c p = l.undelivered c p)
    (hw : l'.undeliveredPutm c = l.undeliveredPutm c) : L1.Counts late c l' a :=
  ⟨hw ▸ h.putm, hu _ ▸ h.upg, hu _ ▸ h.gets, hu _ ▸ h.getmLeast, hu _ ▸ h.getmMost⟩

/-- The count of GETMs does not matter within its bounds. -/
theorem weaken {b : Tally} (h : L1.Counts late c l a) (hb : b.Covers a) : L1.Counts late c l b := by
  obtain ⟨h₁, h₂, h₃, h₄, h₅⟩ := hb
  exact ⟨h₁ ▸ h.putm, h₂ ▸ h.upg, h₃ ▸ h.gets, h₄.trans h.getmLeast,
    fun hl => (h.getmMost hl).trans h₅⟩

/-- Issue the request `q`. -/
theorem issue {b : Tally} (h : L1.Counts late c l a) (q : QueuedRequest)
    (hq : l'.requestFromCache = l.requestFromCache ++ [q])
    (hd : l'.requestToCache = l.requestToCache)
    (hw : l'.undeliveredPutm c = l.undeliveredPutm c)
    (hb : b.Covers { a with
      upg := a.upg + if q.type == .UPG then 1 else 0
      gets := a.gets + if q.type.isGets then 1 else 0
      getmLeast := a.getmLeast + if q.type == .GETM then 1 else 0
      getmMost := a.getmMost + if q.type == .GETM then 1 else 0 }) :
    L1.Counts late c l' b := by
  have hu := fun p => L1.undelivered_issue (c := c) p q hq hd
  refine weaken ?_ hb
  refine ⟨hw ▸ h.putm, ?_, ?_, ?_, ?_⟩
  · rw [hu, h.upg]
  · rw [hu, h.gets]
  · rw [hu]
    exact Nat.add_le_add_right h.getmLeast _
  · intro hl
    rw [hu]
    exact Nat.add_le_add_right (h.getmMost hl) _

/-- See the own request `m`. -/
theorem own {b : Tally} {i : ℕ} {m : RequestMsg n} (h : L1.Counts late c l a) (hm : l.requestToCache[i]? = some m)
    (hc : m.requestor = c) (hq : l'.requestFromCache = l.requestFromCache)
    (hd : l'.requestToCache = l.requestToCache.eraseIdx i)
    (hw : l'.undeliveredPutm c = l.undeliveredPutm c)
    (hb : b.Covers { a with
      upg := a.upg - if m.type == .UPG then 1 else 0
      gets := a.gets - if m.type.isGets then 1 else 0
      getmLeast := a.getmLeast - if m.type == .GETM then 1 else 0
      getmMost := a.getmMost - if m.type == .GETM then 1 else 0 }) :
    L1.Counts late c l' b := by
  have hu := fun p => L1.undelivered_own (c := c) p hm hc hq hd
  refine weaken ?_ hb
  refine ⟨hw ▸ h.putm, ?_, ?_, ?_, ?_⟩
  · rw [← h.upg, ← hu, Nat.add_sub_cancel]
  · rw [← h.gets, ← hu, Nat.add_sub_cancel]
  · have := hu (· == CoherenceRequestType.GETM) ▸ h.getmLeast
    exact Nat.sub_le_of_le_add this
  · intro hl
    have := hu (· == CoherenceRequestType.GETM) ▸ h.getmMost hl
    exact Nat.le_sub_of_add_le this

/-- Issue a PUTM. -/
theorem issuePutm (h : L1.Counts late c l a) (hu : ∀ p, l'.undelivered c p = l.undelivered c p)
    (hw : l'.undeliveredPutm c = l.undeliveredPutm c + 1) :
    L1.Counts late c l' { a with putm := a.putm + 1 } :=
  ⟨by rw [hw, h.putm], hu _ ▸ h.upg, hu _ ▸ h.gets, hu _ ▸ h.getmLeast, hu _ ▸ h.getmMost⟩

/-- See the own PUTM. -/
theorem ownPutm (h : L1.Counts late c l a) (hu : ∀ p, l'.undelivered c p = l.undelivered c p)
    (hw : l'.undeliveredPutm c + 1 = l.undeliveredPutm c) :
    L1.Counts late c l' { a with putm := a.putm - 1 } :=
  ⟨by rw [← h.putm, ← hw, Nat.add_sub_cancel], hu _ ▸ h.upg, hu _ ▸ h.gets, hu _ ▸ h.getmLeast,
    hu _ ▸ h.getmMost⟩

end L1.Counts

theorem L1.Typed.issue (h : L1.Typed c l) {q : QueuedRequest} (ht : q.type ≠ .PUTM)
    (hq : l'.requestFromCache = l.requestFromCache ++ [q])
    (hd : l'.requestToCache = l.requestToCache) (hs : l'.stalled = l.stalled)
    (hdw : l'.requestToCacheWB = l.requestToCacheWB)
    (hr : l'.responseToCache = l.responseToCache) : L1.Typed c l' := by
  refine ⟨?_, hd ▸ h.delivered, hs ▸ h.stalled, hdw ▸ h.deliveredWB, hr ▸ h.responses⟩
  rw [hq]
  intro q' hq'
  rcases mem_append.mp hq' with hq' | hq'
  · exact h.queued q' hq'
  · rwa [mem_singleton.mp hq']

/-- A transition that issues the request `q`. -/
theorem L1.Tallied.issue {s s' : CacheState} (h : l.Tallied late c) (hs : l.state = s)
    (hs' : l'.state = s') (hok : l'.Ok) (q : QueuedRequest)
    (hq : l'.requestFromCache = l.requestFromCache ++ [q])
    (hd : l'.requestToCache = l.requestToCache) (hst : l'.stalled = l.stalled)
    (hw : l'.requestFromCacheWB = l.requestFromCacheWB)
    (hdw : l'.requestToCacheWB = l.requestToCacheWB) (hr : l'.responseToCache = l.responseToCache)
    (ht : q.type ≠ .PUTM ∧
      s'.tally.Covers { s.tally with
        upg := s.tally.upg + if q.type == .UPG then 1 else 0
        gets := s.tally.gets + if q.type.isGets then 1 else 0
        getmLeast := s.tally.getmLeast + if q.type == .GETM then 1 else 0
        getmMost := s.tally.getmMost + if q.type == .GETM then 1 else 0 } ∧
      s'.tally.data = s.tally.data + if q.type.wantsData then 1 else 0) :
    l'.Tallied late c ∧ l.Conserves l' := by
  obtain ⟨hty, hcov, hdata⟩ := ht
  have hcounts := h.counts
  rw [hs] at hcounts
  refine ⟨⟨hok, h.typed.issue hty hq hd hst hdw hr, ?_⟩, ?_⟩
  · rw [hs']
    exact hcounts.issue q hq hd (by simp only [L1.undeliveredPutm, hw, hdw]) hcov
  · rw [L1.Conserves, L1.promised_issue q hq hr, hs, hs']
    omega

/-- Stalled requests that are handed out, and others that stay. -/
theorem L1.Typed.wake (h : L1.Typed c l) {ms ms' : List (RequestMsg n)} (hms : ms ⊆ l.stalled)
    (hms' : ms' ⊆ l.stalled) (hq : l'.requestFromCache = l.requestFromCache)
    (hd : l'.requestToCache = l.requestToCache ++ ms) (hs : l'.stalled = ms')
    (hdw : ∀ m ∈ l'.requestToCacheWB, m ∈ l.requestToCacheWB)
    (hr : ∀ m ∈ l'.responseToCache, m ∈ l.responseToCache) : L1.Typed c l' where
  queued := hq ▸ h.queued
  delivered := by
    rw [hd]
    intro m hm
    rcases mem_append.mp hm with hm | hm
    · exact h.delivered m hm
    · exact (h.stalled m (hms hm)).2
  stalled := fun m hm => h.stalled m (hms' (hs ▸ hm))
  deliveredWB := fun m hm => h.deliveredWB m (hdw m hm)
  responses := fun m hm => h.responses m (hr m hm)

theorem Msi.Processor.tallied [Inhabited β] {r : SequencerRequest β}
    (hx : Msi.Processor c l r x) (h : l.Tallied late c) (hr : l.request = some r) :
    x.line.Tallied late c ∧ l.Conserves x.line := by
  have hok := hx.ok h.ok hr
  have hcounts := h.counts
  cases hx with
  | stall hs hx | readHit hs hk hx | writeHit hs hk hx =>
    subst hx
    exact ⟨⟨hok, { h.typed with }, { hcounts with }⟩, rfl⟩
  | readMiss t hs hk ht hx =>
    subst hx
    rcases ht with rfl | rfl <;>
      exact h.issue hs rfl hok _ rfl rfl rfl rfl rfl rfl (by dsimp only; decide)
  | writeMiss hs hk hx | lockedMiss hs hk hx | upgrade hs hk hx | lockedUpgrade hs hk hx =>
    subst hx
    exact h.issue hs rfl hok _ rfl rfl rfl rfl rfl rfl (by dsimp only; decide)
  | lockedHit hs hk hx =>
    subst hx
    rw [hs] at hcounts
    exact ⟨⟨hok, { h.typed with }, { hcounts with }⟩, by rw [L1.Conserves, hs]; rfl⟩
  | unlock hs hk hx =>
    subst hx
    rw [hs] at hcounts
    refine ⟨⟨hok, h.typed.wake l.woken_subset l.orphans_subset rfl rfl rfl (fun _ => id)
      fun _ => id, hcounts.congr (fun p => L1.undelivered_wake h.typed p l.woken_subset rfl rfl)
        rfl⟩, ?_⟩
    rw [L1.Conserves, hs]
    rfl

theorem Msi.Replacement.tallied (hx : Msi.Replacement l x) (h : l.Tallied late c)
    (hr : l.request = none) : x.line.Tallied late c ∧ l.Conserves x.line := by
  have hok := hx.ok h.ok hr
  have hcounts := h.counts
  cases hx with
  | stall hs hx =>
    subst hx
    exact ⟨⟨hok, { h.typed with }, { hcounts with }⟩, rfl⟩
  | evictShared hs hx =>
    subst hx
    rw [hs] at hcounts
    exact ⟨⟨hok, { h.typed with }, { hcounts with }⟩, by rw [L1.Conserves, hs]; rfl⟩
  | writeBack hs hx =>
    subst hx
    rw [hs] at hcounts
    refine ⟨⟨hok, { h.typed with }, hcounts.issuePutm (fun _ => rfl) ?_⟩, ?_⟩
    · exact add_right_comm _ _ _
    · rw [L1.Conserves, hs]
      rfl

/-- Seeing a request of another core leaves the outstanding messages as they are, except that
an owner issues a PUTM. -/
theorem msiSnooped_tally : ∀ (s : CacheState) (t : CoherenceRequestType), s.live = true →
    (s = .S → t ≠ .GETM ∧ t ≠ .UPG) →
    (msiSnooped s t).tally =
      if s = .M ∧ t ≠ .PUTM then { putm := 1 } else s.tally := by
  intro s t hl
  cases t <;> revert s <;> decide +kernel

variable {i : ℕ} {m : RequestMsg n}

theorem Msi.Snoop.tallied (hx : Msi.Snoop l i m x) (h : l.Tallied late c)
    (hm : l.requestToCache[i]? = some m) (hc : m.requestor ≠ c) :
    x.line.Tallied late c ∧ l.Conserves x.line := by
  have hok := hx.ok h.ok
  have hcounts := h.counts
  have hty := h.typed.delivered m (mem_of_getElem? hm)
  have hmem : ∀ m' ∈ l.requestToCache.eraseIdx i, m'.type ≠ .PUTM := fun m' hm' =>
    h.typed.delivered m' (mem_of_mem_eraseIdx hm')
  cases hx with
  | stall hs hx =>
    subst hx
    refine ⟨⟨hok, { h.typed with delivered := hmem, stalled := ?_ },
      hcounts.congr (fun p => L1.undelivered_snoop p hm hc rfl rfl) rfl⟩, rfl⟩
    intro m' hm'
    rcases mem_append.mp hm' with hm' | hm'
    · exact h.typed.stalled m' hm'
    · rw [mem_singleton.mp hm']
      exact ⟨hc, hty⟩
  | writeBack hs hx =>
    subst hx
    have htal := msiSnooped_tally .M m.type rfl (by simp)
    simp only [hty, ne_eq, not_false_eq_true, and_self, if_true] at htal
    rw [hs] at hcounts
    refine ⟨⟨hok, { h.typed with delivered := hmem }, ?_⟩, ?_⟩
    · rw [htal]
      exact hcounts.issuePutm (fun p => L1.undelivered_snoop p hm hc rfl rfl)
        (add_right_comm _ _ _)
    · rw [L1.Conserves, htal, hs]
      rfl
  | invalidate hs _ hx =>
    subst hx
    rw [hs] at hcounts
    refine ⟨⟨hok, { h.typed with delivered := hmem },
      hcounts.congr (fun p => L1.undelivered_snoop p hm hc rfl rfl) rfl⟩, ?_⟩
    rw [L1.Conserves, hs]
    rfl
  | pop hs hM hS hx =>
    subst hx
    have htal := msiSnooped_tally l.state m.type h.ok.live (fun hs => by
      rcases hS hs with h | h <;> simp [h])
    simp only [hM, false_and, if_false] at htal
    refine ⟨⟨hok, { h.typed with delivered := hmem }, ?_⟩, ?_⟩
    · rw [htal]
      exact hcounts.congr (fun p => L1.undelivered_snoop p hm hc rfl rfl) rfl
    · rw [L1.Conserves, htal]
      rfl

theorem Msi.Own.tallied (hx : Msi.Own c l i m x) (h : l.Tallied late c)
    (hm : l.requestToCache[i]? = some m) (hc : m.requestor = c) :
    x.line.Tallied late c ∧ l.Conserves x.line := by
  have hok := hx.ok h.ok
  have hcounts := h.counts
  have hmem : ∀ m' ∈ l.requestToCache.eraseIdx i, m'.type ≠ .PUTM := fun m' hm' =>
    h.typed.delivered m' (mem_of_mem_eraseIdx hm')
  have hty : L1.Typed c { l with requestToCache := l.requestToCache.eraseIdx i } :=
    { h.typed with delivered := hmem }
  cases hx with
  | read hs ht hx =>
    subst hx
    rw [hs] at hcounts
    refine ⟨⟨hok, { hty with }, hcounts.own hm hc rfl rfl rfl ?_⟩, ?_⟩
    · rcases ht with ht | ht <;> rw [ht] <;> dsimp only <;> decide
    · rw [L1.Conserves, hs]
      rfl
  | rewrite hs ht hx =>
    subst hx
    refine ⟨⟨hok, { hty with }, hcounts.own hm hc rfl rfl rfl ?_⟩, rfl⟩
    rcases hs with hs | hs | hs <;> simp only [hs, ht] <;> decide
  | share r hs ht hr hk hx =>
    subst hx
    rw [hs] at hcounts
    refine ⟨⟨hok, { hty with }, hcounts.own hm hc rfl rfl rfl ?_⟩, ?_⟩
    · rcases ht with ht | ht <;> rw [ht] <;> dsimp only <;> decide
    · rw [L1.Conserves, hs]
      rfl
  | write hs ht hx | modify r hs ht hr hk hx | upgrade r hs ht hr hk hx
  | lockedUpgrade hs ht hr hx =>
    subst hx
    rw [hs] at hcounts
    refine ⟨⟨hok, { hty with }, hcounts.own hm hc rfl rfl rfl ?_⟩, ?_⟩
    · rw [ht]
      dsimp only
      decide
    · rw [L1.Conserves, hs]
      rfl
  | lostUpgrade hs ht hx | lostLockedUpgrade hs ht hx =>
    subst hx
    rw [hs] at hcounts
    have hown : L1.Counts late c { l with requestToCache := l.requestToCache.eraseIdx i } {} :=
      hcounts.own hm hc rfl rfl rfl (by rw [ht]; decide)
    refine ⟨⟨hok, hty.issue (by decide) rfl rfl rfl rfl rfl,
      hown.issue ⟨.GETM, true⟩ rfl rfl rfl (by dsimp only; decide)⟩, ?_⟩
    simp only [L1.Conserves, hs, L1.promised, countP_append, countP_singleton,
      CacheState.tally, CoherenceRequestType.wantsData, if_true]
    omega

theorem L1.undeliveredPutm_snoop (hm : l.requestToCacheWB[i]? = some m)
    (hc : m.requestor ≠ c) (hw : l'.requestFromCacheWB = l.requestFromCacheWB)
    (hd : l'.requestToCacheWB = l.requestToCacheWB.eraseIdx i) :
    l'.undeliveredPutm c = l.undeliveredPutm c := by
  have he := countP_eraseIdx_add (fun m => decide (m.requestor = c)) hm
  simp only [hc, decide_false, Bool.false_eq_true, if_false] at he
  simp only [L1.undeliveredPutm, hw, hd]
  omega

theorem L1.undeliveredPutm_own (hm : l.requestToCacheWB[i]? = some m)
    (hc : m.requestor = c) (hw : l'.requestFromCacheWB = l.requestFromCacheWB)
    (hd : l'.requestToCacheWB = l.requestToCacheWB.eraseIdx i) :
    l'.undeliveredPutm c + 1 = l.undeliveredPutm c := by
  have he := countP_eraseIdx_add (fun m => decide (m.requestor = c)) hm
  simp only [hc, decide_true, if_true] at he
  simp only [L1.undeliveredPutm, hw, hd]
  omega

theorem L1.Typed.eraseWB (h : L1.Typed c l) (i : ℕ) :
    ∀ m ∈ l.requestToCacheWB.eraseIdx i, m.type = .PUTM :=
  fun m hm => h.deliveredWB m (mem_of_mem_eraseIdx hm)

theorem L1.Tallied.snoopWB (h : l.Tallied late c)
    (hm : l.requestToCacheWB[i]? = some m) (hc : m.requestor ≠ c) (k : Bool) :
    L1.Tallied late c { l with
      state := msiSnooped l.state .PUTM, requestToCacheWB := l.requestToCacheWB.eraseIdx i
      locked := k } ∧ (msiSnooped l.state .PUTM).tally = l.state.tally := by
  have htal := msiSnooped_tally l.state .PUTM h.ok.live (by simp)
  simp only [ne_eq, not_true_eq_false, and_false, if_false] at htal
  refine ⟨⟨h.ok.snoopWB i k, { h.typed with deliveredWB := h.typed.eraseWB i }, ?_⟩, htal⟩
  simp only [htal]
  exact h.counts.congr (fun _ => rfl) (L1.undeliveredPutm_snoop hm hc rfl rfl)

theorem Msi.OwnWB.tallied (hx : Msi.OwnWB l i x) (h : l.Tallied late c)
    (hm : l.requestToCacheWB[i]? = some m) (hc : m.requestor = c) :
    x.line.Tallied late c ∧ l.Conserves x.line := by
  have hok := hx.ok h.ok
  have hcounts := h.counts
  cases hx with
  | invalidate hs hx | share hs hx =>
    subst hx
    rw [hs] at hcounts
    exact ⟨⟨hok, h.typed.wake l.woken_subset l.orphans_subset rfl rfl rfl
      (fun _ => mem_of_mem_eraseIdx) fun _ => id,
      hcounts.ownPutm (fun p => L1.undelivered_wake h.typed p l.woken_subset rfl rfl)
        (L1.undeliveredPutm_own hm hc rfl rfl)⟩, by rw [L1.Conserves, hs]; rfl⟩

/-- With no data request queued or on the bus, none is undelivered. -/
theorem L1.undelivered_eq_zero {p : CoherenceRequestType → Bool}
    (hp : ∀ t, p t = true → t.wantsData = true)
    (hq : l.requestFromCache.countP (fun q => q.type.wantsData) = 0)
    (hs : ∀ q ∈ l.requestToCache, q.requestor = c → q.type.wantsData = false) :
    l.undelivered c p = 0 := by
  have h₁ : l.requestFromCache.countP (fun q => p q.type) = 0 :=
    Nat.eq_zero_of_le_zero (hq ▸ countP_mono_left fun q _ h => hp q.type h)
  have h₂ : l.requestToCache.countP (fun m => decide (m.requestor = c) && p m.type) = 0 := by
    rw [countP_eq_zero]
    intro m hm h
    simp only [Bool.and_eq_true, decide_eq_true_eq] at h
    exact absurd (hp m.type h.2) (by simp [hs m hm h.1])
  simp only [L1.undelivered, h₁, h₂]

theorem CacheState.tally_data_le (s : CacheState) : s.tally.data ≤ 1 := by
  cases s <;> decide

/-- Data that arrives is awaited: it is the only data promised, and in a late run the request it
answers has been seen. -/
theorem L1.awaited_of_response {m : ResponseMsg β}
    (hm : l.responseToCache[i]? = some m) (hp : l.promised ≤ l.state.tally.data) :
    l.state.tally.data = 1 ∧
      ((∀ q ∈ l.requestToCache, q.requestor = c → q.type.wantsData = false) →
        l.undelivered c (· == .GETM) = 0) := by
  have hlen := length_eraseIdx_add hm
  have hle := l.state.tally_data_le
  have hone : l.state.tally.data = 1 ∧ l.requestFromCache.countP
    (fun q => q.type.wantsData) = 0 := by
    unfold L1.promised at hp
    omega
  exact ⟨hone.1, fun hs => L1.undelivered_eq_zero (fun t => by cases t <;> decide) hone.2 hs⟩

/-- Data arrives only where it is awaited. -/
theorem Msi.Response.tallied {m : ResponseMsg β} (hx : Msi.Response c l i m x)
    (h : l.Tallied late c) (hm : l.responseToCache[i]? = some m)
    (hp : l.promised ≤ l.state.tally.data)
    (hs : late → ∀ q ∈ l.requestToCache, q.requestor = c → q.type.wantsData = false) :
    x.line.Tallied late c ∧ l.Conserves x.line := by
  obtain ⟨hone, hgetm⟩ := L1.awaited_of_response (c := c) hm hp
  have hlen := length_eraseIdx_add hm
  have hcounts := h.counts
  have hok := hx.ok h.ok
  have hty : ∀ m ∈ l.responseToCache.eraseIdx i, m.exclusive = false := fun m hm =>
    h.typed.responses m (mem_of_mem_eraseIdx hm)
  -- the counts do not change, and in a late run the GETM has been seen
  have hzero : L1.Counts late c l { l.state.tally with getmMost := 0 } :=
    ⟨hcounts.putm, hcounts.upg, hcounts.gets, hcounts.getmLeast, fun hl => by simp [hgetm (hs hl)]⟩
  have hcons : ∀ l' : L1 n β, l'.requestFromCache = l.requestFromCache →
      l'.responseToCache = l.responseToCache.eraseIdx i → l'.state.tally.data = 0 →
      l.Conserves l' := by
    intro l' hq hr hd
    simp only [L1.Conserves, L1.promised, hq, hr, hone, hd]
    omega
  cases hx with
  | ignore hst hx =>
    rcases h.ok.idle_cases hst with hst | hst | hst | hst | hst | hst <;>
      exact absurd hone (by simp [hst, CacheState.tally])
  | early s' hst hx =>
    subst hx
    obtain ⟨hst, rfl⟩ | ⟨hst, rfl⟩ := hst
    all_goals
      rw [hst] at hcounts
      exact ⟨⟨hok, { h.typed with responses := hty }, { hcounts with }⟩, hcons _ rfl rfl rfl⟩
  | share r hst hr hk hx | readOnce r hst hr hk hx | modify r hst hr hk hx =>
    subst hx
    rw [hst] at hzero
    have hnone : L1.Counts late c l {} := { hzero with }
    exact ⟨⟨hok, h.typed.wake l.woken_subset l.orphans_subset rfl rfl rfl (fun _ => id)
      fun _ => mem_of_mem_eraseIdx,
      hnone.congr (fun p => L1.undelivered_wake h.typed p l.woken_subset rfl rfl) rfl⟩,
      hcons _ rfl rfl rfl⟩
  | lock hst hr hx =>
    subst hx
    rw [hst] at hzero
    exact ⟨⟨hok, { h.typed with responses := hty }, { hzero with }⟩, hcons _ rfl rfl rfl⟩
  | modifyOnce r s' hst hr hk hx =>
    subst hx
    obtain ⟨hst, rfl⟩ | ⟨hst, rfl⟩ := hst
    all_goals
      rw [hst] at hzero
      have hnone : L1.Counts late c l {} := { hzero with }
      exact ⟨⟨hok, { h.typed with responses := hty },
        hnone.issuePutm (fun _ => rfl) (add_right_comm _ _ _)⟩, hcons _ rfl rfl rfl⟩

end Transitions

/-! ## The steps of a line -/

section Line

variable {s : Line n β} {c : Fin n}

/-- The accounting of an L1 does not see its atomic messages. -/
theorem L1.Tallied.atomics {l : L1 n β} (h : l.Tallied late c) (as : List AtomicRequestType) :
    L1.Tallied late c { l with atomicRequestToCache := as } :=
  ⟨{ h.ok with }, { h.typed with }, { h.counts with }⟩

theorem Line.Accounted.commit (h : s.Accounted late) {x : Firing n β} (hx : x.line.Tallied late c)
    (hc : (s.cores c).Conserves x.line) : (s.commit c x).Accounted late := by
  refine ⟨fun d => ?_, { h.dir with }, fun d => ?_⟩
  · rcases eq_or_ne d c with rfl | hd
    · simpa [Line.commit] using hx
    · simpa [Line.commit, hd] using (h.core d).atomics _
  · have hp := h.promised d
    rcases eq_or_ne d c with rfl | hd
    · simp only [L1.Conserves] at hc
      simp only [Line.commit, if_true]
      change x.line.promised + s.dir.promised d = _
      omega
    · simp only [Line.commit, hd, if_false]
      exact hp

theorem Line.Accounted.setCore (h : s.Accounted late) {l : L1 n β} (hl : l.Tallied late c)
    (hc : (s.cores c).Conserves l) : (s.setCore c l).Accounted late := by
  refine ⟨fun d => ?_, h.dir, fun d => ?_⟩
  · rcases eq_or_ne d c with rfl | hd
    · simpa [Line.setCore] using hl
    · simpa [Line.setCore, hd] using h.core d
  · have hp := h.promised d
    rcases eq_or_ne d c with rfl | hd
    · simp only [L1.Conserves] at hc
      simp only [Line.setCore, update_self]
      omega
    · simpa [Line.setCore, hd] using hp

/-- A transition of the directory: what it sends is what it no longer promises. -/
theorem Line.Accounted.commitDir (h : s.Accounted late) {x : DirFiring n β} (hd : x.dir.Typed)
    (hp : ∀ d, x.dir.promised d + x.responses.countP (fun r => r.1 = d) = s.dir.promised d)
    (he : ∀ r ∈ x.responses, r.2.exclusive = false) : (s.commitDir x).Accounted late := by
  refine ⟨fun d => ?_, hd, fun d => ?_⟩
  · have hc := h.core d
    refine ⟨{ hc.ok with }, { hc.typed with responses := ?_ }, { hc.counts with }⟩
    intro m hm
    rcases mem_append.mp hm with hm | hm
    · exact hc.typed.responses m hm
    · obtain ⟨r, hr, rfl⟩ := mem_map.mp hm
      exact he r (mem_filter.mp hr).1
  · have h₁ := h.promised d
    have h₂ := hp d
    simp only [L1.promised] at h₁
    simp only [Line.commitDir, L1.promised, length_append, length_map,
      ← countP_eq_length_filter]
    omega

/-- A change of the directory's record that no L1 sees. -/
theorem Line.Accounted.setDir (h : s.Accounted late) {d : Dir n β} (hd : d.Typed)
    (hp : ∀ c, d.promised c = s.dir.promised c) : Line.Accounted late { s with dir := d } :=
  ⟨h.core, hd, fun c => by rw [hp]; exact h.promised c⟩

section Directory

variable {d d' : Dir n β} {x : DirFiring n β} {i : ℕ} {m : RequestMsg n} {c : Fin n}

theorem Dir.Typed.erase (h : d.Typed) (i : ℕ) : ∀ m ∈ d.requestToDir.eraseIdx i, m.type ≠ .PUTM :=
  fun m hm => h.requests m (mem_of_mem_eraseIdx hm)

/-- A request without data promises nothing. -/
theorem Dir.promised_drop (hm : d.requestToDir[i]? = some m) (ht : m.type.wantsData = false)
    (hr : d'.requestToDir = d.requestToDir.eraseIdx i) (hs : d'.stalled = d.stalled)
    (hq : d'.requestToMemory = d.requestToMemory)
    (ha : d'.responseFromMemory = d.responseFromMemory) : d'.promised c = d.promised c := by
  have he := countP_eraseIdx_add (RequestMsg.wantsDataFor c) hm
  have hw : m.wantsDataFor c = false := by simp [RequestMsg.wantsDataFor, ht]
  simp only [hw, Bool.false_eq_true, if_false] at he
  simp only [Dir.promised, hr, hs, hq, ha]
  omega

/-- A stalled request still promises its data. -/
theorem Dir.promised_stall (hm : d.requestToDir[i]? = some m)
    (hr : d'.requestToDir = d.requestToDir.eraseIdx i) (hs : d'.stalled = d.stalled ++ [m])
    (hq : d'.requestToMemory = d.requestToMemory)
    (ha : d'.responseFromMemory = d.responseFromMemory) : d'.promised c = d.promised c := by
  have he := countP_eraseIdx_add (RequestMsg.wantsDataFor c) hm
  simp only [Dir.promised, hr, hs, hq, ha, countP_append, countP_singleton]
  omega

/-- A fetch moves the promise to the memory. -/
theorem Dir.promised_fetch (hm : d.requestToDir[i]? = some m) (ht : m.type.wantsData = true)
    (hr : d'.requestToDir = d.requestToDir.eraseIdx i) (hs : d'.stalled = d.stalled)
    (hq : d'.requestToMemory = d.requestToMemory ++ [.read m.requestor])
    (ha : d'.responseFromMemory = d.responseFromMemory) : d'.promised c = d.promised c := by
  have he := countP_eraseIdx_add (RequestMsg.wantsDataFor c) hm
  have hw : m.wantsDataFor c = MemoryRequest.isReadFor (β := β) c (.read m.requestor) := by
    simp [RequestMsg.wantsDataFor, MemoryRequest.isReadFor, ht]
  rw [hw] at he
  simp only [Dir.promised, hr, hs, hq, ha, countP_append, countP_singleton]
  omega

theorem Msi.DirRequest.accounted (hx : Msi.DirRequest d i m x) (hd : d.Typed)
    (hm : d.requestToDir[i]? = some m) :
    x.dir.Typed ∧ x.responses = [] ∧ ∀ c, x.dir.promised c = d.promised c := by
  cases hx with
  | stall hs ht hp ho hx =>
    subst hx
    refine ⟨{ hd with requests := hd.erase i, stalled := ?_, waiting := .inr rfl }, rfl,
      fun c => Dir.promised_stall hm rfl rfl rfl rfl⟩
    intro m' hm'
    rcases mem_append.mp hm' with hm' | hm'
    · exact hd.stalled m' hm'
    · rwa [mem_singleton.mp hm']
  | fetchShared hs ht hx =>
    subst hx
    have hw : m.type.wantsData = true := by rcases ht with ht | ht <;> rw [ht] <;> rfl
    exact ⟨{ hd with requests := hd.erase i }, rfl,
      fun c => Dir.promised_fetch hm hw rfl rfl rfl rfl⟩
  | fetchOwned hs ht ho hx | fetchOwner hs ht ho hx =>
    subst hx
    exact ⟨{ hd with requests := hd.erase i }, rfl,
      fun c => Dir.promised_fetch hm (by rw [ht]; rfl) rfl rfl rfl rfl⟩
  | await hs hm hp ho hx =>
    subst hx
    exact ⟨{ hd with }, rfl, fun _ => rfl⟩
  | drop hs ht hx | grant hs ht hx =>
    subst hx
    exact ⟨{ hd with requests := hd.erase i }, rfl,
      fun c => Dir.promised_drop hm (by rw [ht]; rfl) rfl rfl rfl rfl⟩

theorem Msi.DirPutm.accounted (hx : Msi.DirPutm d i x) (hd : d.Typed) :
    x.dir.Typed ∧ x.responses = [] ∧ ∀ c, x.dir.promised c = d.promised c := by
  cases hx with
  | pop s' hs hx =>
    subst hx
    exact ⟨{ hd with requestsWB := fun m hm => hd.requestsWB m (mem_of_mem_eraseIdx hm) },
      rfl, fun _ => rfl⟩
  | stall hs hx =>
    subst hx
    cases hr : d.requestToDir with
    | nil => exact ⟨{ hd with
        requests := by simp, stalled := by simpa using hd.stalled, waiting := .inr rfl }, rfl,
        fun c => by simp [Dir.promised, hr]⟩
    | cons m ms =>
      have hreq := hd.requests
      rw [hr] at hreq
      refine ⟨{ hd with requests := ?_, stalled := ?_, waiting := .inr rfl }, rfl, fun c => ?_⟩
      · exact fun m' hm' => hreq m' (mem_cons_of_mem m hm')
      · intro m' hm'
        rcases mem_append.mp hm' with hm' | hm'
        · exact hd.stalled m' hm'
        · simp only [head?_cons, Option.toList_some, mem_singleton] at hm'
          exact hm' ▸ hreq m mem_cons_self
      · simp only [Dir.promised, hr, tail_cons, head?_cons, Option.toList_some,
          countP_append, countP_nil, countP_cons]
        omega

theorem Dir.Typed.wake (h : d.Typed) : ∀ m ∈ d.requestToDir ++ d.stalled, m.type ≠ .PUTM := by
  intro m hm
  rcases mem_append.mp hm with hm | hm
  · exact h.requests m hm
  · exact h.stalled m hm

theorem Dir.accessMemory_accounted (hd : d.Typed) (h : d.accessMemory = some d') :
    d'.Typed ∧ ∀ c, d'.promised c = d.promised c := by
  unfold Dir.accessMemory at h
  split at h
  · cases h
  · rename_i q rest hq
    cases h
    refine ⟨{ hd with }, fun c => ?_⟩
    have hw : MemoryResponse.isDataFor c (.data q d.memory) =
        MemoryRequest.isReadFor (β := β) c (.read q) := rfl
    simp only [Dir.promised, hq, countP_append, countP_nil, countP_cons, hw]
    omega
  · rename_i b rest hq
    cases h
    refine ⟨{ hd with }, fun c => ?_⟩
    simp [Dir.promised, hq, MemoryRequest.isReadFor, MemoryResponse.isDataFor]

end Directory

/-- Ordering a request moves it from the queue of its issuer into the buffers of all. -/
theorem Line.Accounted.ordered (h : s.Accounted late) {i : ℕ} {q : QueuedRequest}
    (hq : (s.cores c).requestFromCache[i]? = some q) : (s.ordered c i q).Accounted late := by
  have hmem : q.type ≠ .PUTM := (h.core c).typed.queued q (mem_of_getElem? hq)
  have herase := fun p : CoherenceRequestType → Bool =>
    countP_eraseIdx_add (fun q : QueuedRequest => p q.type) hq
  have hdel : ∀ d, ∀ m ∈ (s.cores d).requestToCache ++ [(⟨q.type, c⟩ : RequestMsg n)],
      m.type ≠ .PUTM := by
    intro d m hm
    rcases mem_append.mp hm with hm | hm
    · exact (h.core d).typed.delivered m hm
    · rwa [mem_singleton.mp hm]
  refine ⟨fun d => ?_, { h.dir with requests := ?_ }, fun d => ?_⟩
  · have hc := h.core d
    rcases eq_or_ne d c with rfl | hd
    · simp only [Line.ordered, Line.broadcast, Line.setCore, update_self]
      refine ⟨{ hc.ok with }, { hc.typed with
        delivered := hdel d
        queued := fun q' hq' => hc.typed.queued q' (mem_of_mem_eraseIdx hq') },
        hc.counts.congr (fun p => ?_) rfl⟩
      have he := herase p
      simp only [L1.undelivered, countP_append, countP_singleton, decide_true,
        Bool.true_and]
      omega
    · simp only [Line.ordered, Line.broadcast, Line.setCore, update_of_ne hd]
      refine ⟨{ hc.ok with }, { hc.typed with delivered := hdel d },
        hc.counts.congr (fun p => ?_) rfl⟩
      simp [L1.undelivered, Ne.symm hd]
  · intro m hm
    rcases mem_append.mp hm with hm | hm
    · exact h.dir.requests m hm
    · rwa [mem_singleton.mp hm]
  · have hp := h.promised d
    have he := herase CoherenceRequestType.wantsData
    rcases eq_or_ne d c with rfl | hd
    · simp only [Line.ordered, Line.broadcast, Line.setCore, update_self, L1.promised,
        Dir.promised, countP_append, countP_singleton, RequestMsg.wantsDataFor,
        decide_true, Bool.true_and] at hp he ⊢
      omega
    · simpa [Line.ordered, Line.broadcast, Line.setCore, update_of_ne hd, L1.promised,
        Dir.promised, RequestMsg.wantsDataFor, Ne.symm hd] using hp

theorem Line.Accounted.orderedWB (h : s.Accounted late) (hq : (s.cores c).requestFromCacheWB ≠ 0) :
    (s.orderedWB c).Accounted late := by
  have hdel : ∀ d, ∀ m ∈ (s.cores d).requestToCacheWB ++ [(⟨.PUTM, c⟩ : RequestMsg n)],
      m.type = .PUTM := by
    intro d m hm
    rcases mem_append.mp hm with hm | hm
    · exact (h.core d).typed.deliveredWB m hm
    · rw [mem_singleton.mp hm]
  refine ⟨fun d => ?_, { h.dir with requestsWB := ?_ }, fun d => ?_⟩
  · have hc := h.core d
    rcases eq_or_ne d c with rfl | hd
    · simp only [Line.orderedWB, Line.broadcastWB, Line.setCore, update_self]
      refine ⟨{ hc.ok with }, { hc.typed with deliveredWB := hdel d },
        hc.counts.congr (fun _ => rfl) ?_⟩
      simp only [L1.undeliveredPutm, countP_append, countP_singleton, decide_true,
        if_true]
      omega
    · simp only [Line.orderedWB, Line.broadcastWB, Line.setCore, update_of_ne hd]
      refine ⟨{ hc.ok with }, { hc.typed with deliveredWB := hdel d },
        hc.counts.congr (fun _ => rfl) ?_⟩
      simp [L1.undeliveredPutm, Ne.symm hd]
  · intro m hm
    rcases mem_append.mp hm with hm | hm
    · exact h.dir.requestsWB m hm
    · rw [mem_singleton.mp hm]
  · have hp := h.promised d
    rcases eq_or_ne d c with rfl | hd
    · simp only [Line.orderedWB, Line.broadcastWB, Line.setCore, update_self]
      exact hp
    · simp only [Line.orderedWB, Line.broadcastWB, Line.setCore, update_of_ne hd]
      exact hp

variable [Inhabited β] {t : Line n β} {k : Label n β}

/-- **Every step keeps the accounts.** -/
theorem Line.Accounted.step (h : s.Accounted late) (hk : late → s.Late k) (hx : Msi.Step s k t) :
    t.Accounted late := by
  cases hx with
  | issue c r hr hb =>
    have hc := h.core c
    exact h.setCore ⟨hc.ok.issue r hr hb, { hc.typed with }, { hc.counts with }⟩ rfl
  | processor c r x hr hq hx =>
    obtain ⟨hl, hc⟩ := hx.tallied (h.core c) hr
    exact h.commit hl hc
  | replacement c x hr hx =>
    obtain ⟨hl, hc⟩ := hx.tallied (h.core c) hr
    exact h.commit hl hc
  | order c i q hq => exact h.ordered hq
  | orderWB c hq => exact h.orderedWB hq
  | snoop c i m x hm hc hx =>
    obtain ⟨hl, hc⟩ := hx.tallied (h.core c) hm hc
    exact h.commit hl hc
  | own c i m x hm hc hx =>
    obtain ⟨hl, hc⟩ := hx.tallied (h.core c) hm hc
    exact h.commit hl hc
  | snoopWB c i m hm hc =>
    obtain ⟨hl, ht⟩ := (h.core c).snoopWB hm hc _
    exact h.commit hl (by rw [L1.Conserves, ht]; rfl)
  | ownWB c i m x hm hc hx =>
    obtain ⟨hl, hc⟩ := hx.tallied (h.core c) hm hc
    exact h.commit hl hc
  | response c i m x hm hx =>
    obtain ⟨hl, hc⟩ := hx.tallied (h.core c) hm
      (by have := h.promised c; omega) hk
    exact h.commit hl hc
  | atomic c i a ha =>
    have hc := h.core c
    exact h.commit ⟨{ hc.ok with }, { hc.typed with }, { hc.counts with }⟩ rfl
  | wakeUp c =>
    have hc := h.core c
    refine h.setCore ⟨{ hc.ok with stalledWB := rfl }, hc.typed.wake (Subset.refl _)
      (nil_subset _) rfl rfl rfl ?_ fun _ => id,
      hc.counts.congr (fun p => L1.undelivered_wake hc.typed p (Subset.refl _) rfl rfl) ?_⟩ rfl
    · simp [hc.ok.stalledWB]
    · simp [L1.undeliveredPutm, hc.ok.stalledWB]
  | dirRequest i m x hm hx =>
    obtain ⟨hd, hr, hp⟩ := hx.accounted h.dir hm
    exact h.commitDir hd (fun c => by rw [hp, hr]; rfl) (by simp [hr])
  | dirPutm i m x hm ho hx =>
    obtain ⟨hd, hr, hp⟩ := hx.accounted h.dir
    exact h.commitDir hd (fun c => by rw [hp, hr]; rfl) (by simp [hr])
  | dirPutmStale i m hm ho =>
    have hWB : ∀ m ∈ s.dir.requestToDirWB.eraseIdx i, m.type = .PUTM := fun m hm =>
      h.dir.requestsWB m (mem_of_mem_eraseIdx hm)
    exact h.setDir { h.dir with requestsWB := hWB } fun _ => rfl
  | dirResponse i q b hm hs =>
    refine h.commitDir { h.dir with
      requests := h.dir.wake, stalled := by simp, waiting := .inl rfl } (fun c => ?_) (by simp)
    simp [Dir.promised, MemoryRequest.isReadFor]
  | memory d hd =>
    obtain ⟨hd, hp⟩ := Dir.accessMemory_accounted h.dir hd
    exact h.setDir hd hp
  | dirMemoryData q b s' hm hs =>
    refine h.commitDir { h.dir with
      requests := h.dir.wake, stalled := by simp, waiting := .inl rfl } (fun c => ?_) (by simp)
    obtain ⟨rest, hrest⟩ : ∃ rest, s.dir.responseFromMemory = .data q b :: rest := by
      simpa [head?_eq_some_iff] using hm
    simp only [Dir.promised, hrest, tail_cons, countP_append, countP_nil,
      countP_cons, MemoryResponse.isDataFor, decide_eq_true_eq]
    omega
  | dirMemoryAck hm =>
    refine h.commitDir { h.dir with } (fun c => ?_) (by simp)
    obtain ⟨rest, hrest⟩ : ∃ rest, s.dir.responseFromMemory = .ack :: rest := by
      simpa [head?_eq_some_iff] using hm
    simp [Dir.promised, hrest, MemoryResponse.isDataFor]

theorem Line.accounted_init (b : β) : (Line.init n b).Accounted late where
  core := fun c => {
    ok := ⟨rfl, rfl, by simp [Line.init], by simp [Line.init], ⟨rfl, rfl⟩, rfl⟩
    typed := by constructor <;> simp [Line.init]
    counts := by constructor <;> simp [Line.init, L1.undelivered, L1.undeliveredPutm, CacheState.tally] }
  dir := by constructor <;> simp [Line.init]
  promised := fun c => rfl

/-- What an accounted line does is in the list `Msi.Step`. -/
theorem Line.Accounted.cases (h : s.Accounted late) (hx : s.step msi k = .ok t) :
    Msi.Step s k t :=
  Msi.step_cases (fun c => (h.core c).ok) (fun c => (h.core c).typed) h.dir hx

/-- The accounts are right in every reachable state. -/
theorem Line.accounted_of_runs {b : β} {ls : List (Label n β)} {ok : Line n β → Label n β → Prop}
    (hok : ∀ s k, ok s k → late → s.Late k)
    (h : Runs (Within (Line.step msi) ok) (Line.init n b) ls t) : t.Accounted late :=
  h.invariant (fun s k _ hs hk => hs.step (hok s k hk.1) (hs.cases hk.2)) (Line.accounted_init b)

end Line

/-! ## No request is lost -/

variable {c : Fin n} {l : L1 n β}

/-- Own requests counted by kinds. -/
theorem L1.Typed.undelivered_add (h : L1.Typed c l)
    {p q r : CoherenceRequestType → Bool}
    (hp : ∀ t, t ≠ .PUTM → (p t).toNat = (q t).toNat + (r t).toNat) :
    l.undelivered c p = l.undelivered c q + l.undelivered c r := by
  have h₁ : l.requestFromCache.countP (fun m => p m.type) =
      l.requestFromCache.countP (fun m => q m.type) +
        l.requestFromCache.countP (fun m => r m.type) :=
    countP_eq_add fun m hm => hp m.type (h.queued m hm)
  have h₂ : l.requestToCache.countP (fun m => decide (m.requestor = c) && p m.type) =
      l.requestToCache.countP (fun m => decide (m.requestor = c) && q m.type) +
        l.requestToCache.countP (fun m => decide (m.requestor = c) && r m.type) := by
    refine countP_eq_add fun m hm => ?_
    by_cases hc : m.requestor = c
    · simpa [hc] using hp m.type (h.delivered m hm)
    · simp [hc]
  simp only [L1.undelivered, h₁, h₂]
  omega

/-- Every own request is an UPG, a GETS or GETI, or a GETM. -/
theorem L1.Typed.undelivered_all (h : L1.Typed c l) :
    l.undelivered c (fun _ => true) = l.undelivered c (· == .UPG) +
      (l.undelivered c CoherenceRequestType.isGets + l.undelivered c (· == .GETM)) := by
  rw [← h.undelivered_add (p := CoherenceRequestType.wantsData), ← h.undelivered_add]
  all_goals
    intro t ht
    cases t <;> first | exact absurd rfl ht | decide

/-- A PUTM is outstanding exactly in the write-back states. -/
theorem L1.Tallied.putm_iff (h : l.Tallied late c) :
    l.state = .MI_A ∨ l.state = .MS_A ↔ l.undeliveredPutm c = 1 := by
  rw [h.counts.putm]
  generalize l.state = s
  revert s
  decide

section Machine

variable [Inhabited β] {α : Type} [Fintype α] [DecidableEq α]

/-- **Request accounting.**  In every reachable state, however messages are delivered, and for
every L1 and line: exactly in `MI_A` and `MS_A` one PUTM of the L1 is undelivered to itself;
in `IS_AD` exactly one GETS or GETI is, in the upgrade states exactly one UPG, in `IM_AD` a GETM;
and a request is popped and not called back exactly if the line is in a request-pending state of
its kind.  If no answer has overtaken its request, no other own request is undelivered in
`IS_AD`, `IM_AD` and the upgrade states. -/
theorem request_accounting {mem : α → β} {ks : List (α × Label n β)} {s : Machine n α β}
    (h : Runs (Within (Machine.step (Line.step msi)) (Machine.Each Anytime))
      (Machine.init n mem) ks s) (a : α) (c : Fin n) :
    let l := s.l1 a c
    (l.state = .MI_A ∨ l.state = .MS_A ↔ l.undeliveredPutm c = 1) ∧
    (l.state = .IS_AD → l.undelivered c CoherenceRequestType.isGets = 1) ∧
    (l.state = .IM_AD → 1 ≤ l.undelivered c (· == .GETM)) ∧
    (l.state = .SM_W ∨ l.state = .IM_W ∨ l.state = .SM_WL ∨ l.state = .IM_WL →
      l.undelivered c (· == .UPG) = 1) ∧
    (∀ r, l.request = some r → l.inMandatoryQueue = false →
      l.state.pending = r.type.kind ∧ l.state.pending ≠ .none) ∧
    (l.state.pending ≠ .none → ∃ r, l.request = some r ∧ l.inMandatoryQueue = false) ∧
    (Runs (Within (Machine.step (Line.step msi)) (Machine.Each Line.Late))
        (Machine.init n mem) ks s →
      l.state = .IS_AD ∨ l.state = .IM_AD ∨ l.state = .SM_W ∨ l.state = .IM_W ∨
        l.state = .SM_WL ∨ l.state = .IM_WL →
      l.undelivered c (fun _ => true) = 1) := by
  obtain ⟨ls, hls⟩ := Machine.runs_line h a
  have hl : (s.l1 a c).Tallied False c :=
    (Line.accounted_of_runs (fun _ _ _ => False.elim) hls).core c
  have hcounts := hl.counts
  refine ⟨hl.putm_iff, fun hs => ?_, fun hs => ?_, fun hs => ?_, fun r hr hq => ?_, fun hp => ?_,
    fun hlate hs => ?_⟩
  · rw [hs] at hcounts
    exact hcounts.gets
  · rw [hs] at hcounts
    exact hcounts.getmLeast
  · rcases hs with hs | hs | hs | hs <;> rw [hs] at hcounts <;> exact hcounts.upg
  · have hreq := hl.ok.request
    simpa only [L1.RequestOk, hr, hq, Bool.false_eq_true, if_false] using hreq
  · obtain ⟨hq, r, hr, -⟩ := hl.ok.exists_request hp
    exact ⟨r, hr, hq⟩
  · obtain ⟨ls, hls⟩ := Machine.runs_line hlate a
    have hl : (s.l1 a c).Tallied True c :=
      (Line.accounted_of_runs (fun _ _ hk _ => hk) hls).core c
    have hall := hl.typed.undelivered_all
    have hcounts := hl.counts
    have h₁ := hcounts.upg
    have h₂ := hcounts.gets
    have h₃ := hcounts.getmLeast
    have h₄ := hcounts.getmMost trivial
    rcases hs with hs | hs | hs | hs | hs | hs <;> rw [hs] at h₁ h₂ h₃ h₄ <;>
      simp only [CacheState.tally] at h₁ h₂ h₃ h₄ <;> omega

/-- A load miss of core 0: its GETS is queued. -/
theorem request_accounting_load_miss :
    ∃ s : Machine 2 Unit ℕ,
      Runs (Within (Machine.step (Line.step msi)) (Machine.Each Anytime)) (Machine.init 2 fun _ => 0)
        [((), .issue 0 ⟨.LD, id⟩), ((), .mandatory 0)] s ∧
      (s.l1 () 0).state = .IS_AD ∧ (s.l1 () 0).undelivered 0 CoherenceRequestType.isGets = 1 := by
  refine exists_runs_and_of_execWithin (by decide +kernel) ?_
  intro s hs hst
  exact (request_accounting hs () 0).2.1 hst

/-- The data of a locked read overtakes the GETM it answers.  The line is written, replaced and
written back, and at the next store miss two GETMs of the L1 are undelivered to itself. -/
theorem request_accounting_overtaken :
    ∃ s : Machine 1 Bool ℕ,
      Runs (Within (Machine.step (Line.step msi)) (Machine.Each Line.InOrder))
        (Machine.init 1 fun _ => 0)
        [(false, .issue 0 ⟨.Locked_RMW_Read, id⟩), (false, .mandatory 0), (false, .order 0 0),
          (false, .dirRequest 0), (false, .memory), (false, .dirMemory), (false, .response 0 0),
          (false, .issue 0 ⟨.Locked_RMW_Write, id⟩), (false, .mandatory 0),
          (true, .issue 0 ⟨.LD, id⟩), (false, .replacement 0), (false, .orderWB 0),
          (false, .requestWB 0 0), (true, .mandatory 0), (true, .order 0 0), (true, .request 0 0),
          (true, .dirRequest 0), (true, .memory), (true, .dirMemory), (true, .response 0 0),
          (false, .issue 0 ⟨.ST, id⟩), (false, .mandatory 0)] s ∧
      (s.l1 false 0).state = .IM_AD ∧ (s.l1 false 0).undelivered 0 (fun _ => true) = 2 ∧
      (s.l1 false 0).undelivered 0 (· == .GETM) = 2 :=
  exists_runs_of_execWithin (by decide +kernel)

end Machine
