/-
# The coherence invariant and the bus

Ordering a request changes the mode of every L1 and the directory's heir or its
backlog at once.  Under the TDM discipline everybody has seen all requests by
then, so before the slot the modes are the states.  Seeing the own PUTM is the
other step with effects at both ends: the owner gives up the line and its data is
on the way to the directory.
-/
import Gem5.MsiCoherenceDir

open List

variable {n : ℕ} {β : Type}

/-! ## Ordering a request -/

/-- A slot of a coherent line: the bus is about to take `q`, the `i`th request of `c`. -/
structure Line.AtSlot (s : Line n β) (c : Fin n) (i : ℕ) (q : QueuedRequest) : Prop where
  coherent : s.Coherent
  queued : (s.cores c).requestFromCache[i]? = some q
  seen : s.Seen
  idle : s.MemoryIdle
  first : s.SidePending → q.side = true
  accounted : (s.ordered c i q).Accounted False

namespace Line.AtSlot

variable {s : Line n β} {c d : Fin n} {i : ℕ} {q : QueuedRequest}

section Before

variable (h : s.AtSlot c i q)

include h

theorem mem_queued : q ∈ (s.cores c).requestFromCache := mem_of_getElem? h.queued

theorem mode_eq (d : Fin n) : (s.cores d).mode d = (s.cores d).state :=
  L1.mode_eq_state (h.seen.1 d).1

theorem heir_eq : s.dir.heir = s.dir.owner := Dir.heir_eq_owner (by rw [h.seen.2.1]; simp)

theorem fetching : s.dir.fetching = [] := by
  rw [Dir.fetching, h.idle.2.1, h.idle.2.2]
  rfl

theorem not_releases (d : Fin n) : ¬ s.Releases d := by
  rintro ⟨m, hm, -⟩
  rw [(h.seen.1 d).2] at hm
  cases hm

theorem state_ne_MI : s.dir.state ≠ .MI := by
  intro hs
  obtain ⟨c, -, hr⟩ := h.coherent.released hs h.idle.1
  exact h.not_releases c hr

/-- The only side packet is the one that is ordered. -/
theorem of_hasSide (hd : (s.cores d).HasSide) : d = c ∧ q.type = .GETM := by
  have hside := h.first ⟨d, hd⟩
  have hc : (s.cores c).HasSide := ⟨q, h.mem_queued, hside⟩
  refine ⟨h.coherent.lost d c (.inl hd) (.inl hc), ?_⟩
  have := (h.coherent.core c).asked q h.mem_queued
  obtain ⟨t, side⟩ := q
  obtain rfl : side = true := hside
  cases t <;> first | rfl | cases this

/-- Without an owner the backlog is empty between slots. -/
theorem backlog_of_not_owned (ho : s.dir.owner = none) : s.dir.backlog = [] := by
  cases h.coherent.shape with
  | idle h1 h2 h3 h4 =>
    rw [Dir.backlog, h4, h.seen.2.1]
    rfl
  | reading o h1 h2 h3 h4 =>
    rw [h.fetching] at h4
    cases h4
  | granting o h1 h2 | owned o h1 h2 | recalling o h1 h2 | writingBack o b h1 h2 =>
    rw [ho] at h2
    cases h2

/-- The issuer of an UPG has it outstanding. -/
theorem state_of_upg (hq : q.type = .UPG) : (s.cores c).state.shares = true ∧
    (s.cores c).state ≠ .IS_D ∧ (msiOwn (s.cores c).state .UPG).owns = true ∨
    (s.cores c).state.lost = true := by
  have hpos : 0 < (s.cores c).undelivered c (· == .UPG) :=
    Nat.lt_of_lt_of_le ((countP_pos_iff (p := fun q : QueuedRequest => q.type == .UPG)).mpr
      ⟨q, h.mem_queued, by simp [hq]⟩) (Nat.le_add_right _ _)
  rw [(h.coherent.accounted.core c).counts.upg] at hpos
  revert hpos
  generalize (s.cores c).state = st
  revert st
  decide

/-- An UPG that is in time finds no owner. -/
theorem owner_of_shares (hs : (s.cores d).state.shares = true)
    (hd : (s.cores d).state ≠ .IS_D) : s.dir.owner = none := by
  have hserved := h.coherent.served (CacheState.data_of_shares hs hd)
  rw [← h.heir_eq]
  exact (h.coherent.sharing d (h.mode_eq d ▸ hs) hserved).resolve_right fun hne => hne h.idle.1

end Before

section After

theorem cores_requestToCache (hs : s.Seen) :
    ((s.ordered c i q).cores d).requestToCache = [⟨q.type, c⟩] := by
  have := (hs.1 d).1
  by_cases hd : d = c
  · subst hd
    simpa [Line.ordered, Line.broadcast, Line.setCore] using this
  · simpa [Line.ordered, Line.broadcast, Line.setCore, hd] using this

/-- What the bus leaves alone. -/
theorem cores_same : ((s.ordered c i q).cores d).state = (s.cores d).state ∧
    ((s.ordered c i q).cores d).stalled = (s.cores d).stalled ∧
    ((s.ordered c i q).cores d).waiting = (s.cores d).waiting ∧
    ((s.ordered c i q).cores d).requestToCacheWB = (s.cores d).requestToCacheWB ∧
    ((s.ordered c i q).cores d).requestFromCache =
      if d = c then (s.cores c).requestFromCache.eraseIdx i else (s.cores d).requestFromCache := by
  by_cases hd : d = c
  · subst hd
    simp [Line.ordered, Line.broadcast, Line.setCore]
  · simp [Line.ordered, Line.broadcast, Line.setCore, hd]

theorem backlog_eq : (s.ordered c i q).dir.backlog =
    s.dir.backlog ++ if q.type.wantsData then [⟨q.type, c⟩] else [] := by
  show (s.dir.stalled ++ (s.dir.requestToDir ++ [(⟨q.type, c⟩ : RequestMsg n)])).filter _ = _
  rw [← append_assoc, filter_append, filter_singleton, Bool.cond_eq_ite, Dir.backlog]

theorem mem_backlog_of {m : RequestMsg n} (hm : m ∈ s.dir.backlog) :
    m ∈ (s.ordered c i q).dir.backlog := by
  rw [backlog_eq]
  exact mem_append_left _ hm

theorem own_mem_backlog (hq : q.type.wantsData = true) :
    (⟨q.type, c⟩ : RequestMsg n) ∈ (s.ordered c i q).dir.backlog := by
  rw [backlog_eq, if_pos hq]
  exact mem_append_right _ (mem_singleton_self _)

theorem backlog_of_upg (hq : q.type = .UPG) : (s.ordered c i q).dir.backlog = s.dir.backlog := by
  rw [backlog_eq, hq, if_neg (by decide), append_nil]

theorem asks_iff (hd : d ≠ c) : ((s.ordered c i q).cores d).Asks ↔ (s.cores d).Asks := by
  unfold L1.Asks
  rw [cores_same.2.2.2.2, if_neg hd]

theorem asks_of {d : Fin n} (ha : ((s.ordered c i q).cores d).Asks) : (s.cores d).Asks := by
  obtain ⟨q', hq', hw⟩ := ha
  rw [cores_same.2.2.2.2] at hq'
  refine ⟨q', ?_, hw⟩
  split at hq'
  · rename_i hd
    rw [hd]
    exact mem_of_mem_eraseIdx hq'
  · exact hq'

theorem served (hd : d ≠ c) (ht : (s.ordered c i q).Served d) : s.Served d :=
  ⟨fun ha => ht.1 ((asks_iff hd).mpr ha), fun m hm => ht.2 m (mem_backlog_of hm)⟩

/-- The issuer of an UPG is served if it was. -/
theorem served_upg (hq : q.type = .UPG) (hs : s.Served c) : (s.ordered c i q).Served c := by
  refine ⟨fun ha => hs.1 (asks_of ha), ?_⟩
  rw [backlog_of_upg hq]
  exact hs.2

variable (h : s.AtSlot c i q)

include h

theorem requestToDir_eq : (s.ordered c i q).dir.requestToDir = [⟨q.type, c⟩] := by
  show s.dir.requestToDir ++ _ = _
  rw [h.seen.2.1, nil_append]

theorem mode_own : ((s.ordered c i q).cores c).mode c = msiOwn (s.cores c).state q.type := by
  rw [L1.mode, cores_requestToCache h.seen, cores_same.1, foldl_cons, foldl_nil,
    CacheState.sees_own (m := ⟨q.type, c⟩) rfl]

theorem mode_other (hd : d ≠ c) :
    ((s.ordered c i q).cores d).mode d = msiSnooped (s.cores d).state q.type := by
  rw [L1.mode, cores_requestToCache h.seen, cores_same.1, foldl_cons, foldl_nil,
    CacheState.sees_other fun hc => hd hc.symm]

/-- After the slot the issuer has no further data request. -/
theorem not_asks (hq : q.type.wantsData = true) : ¬ ((s.ordered c i q).cores c).Asks :=
  h.accounted.not_asks (own_mem_backlog hq)

theorem heir_of_ne (hq : q.type ≠ .UPG) : (s.ordered c i q).dir.heir = s.dir.owner :=
  Dir.heir_eq_owner (by rw [h.requestToDir_eq]; simpa using hq)

theorem heir_of_upg (hq : q.type = .UPG) :
    (s.ordered c i q).dir.heir = s.dir.owner.or (some c) := by
  show s.dir.owner.or _ = _
  rw [h.requestToDir_eq]
  simp [hq]

theorem wantsData_of_ne (hq : q.type ≠ .UPG) : q.type.wantsData = true := by
  have := (h.coherent.accounted.core c).typed.queued q h.mem_queued
  revert hq this
  generalize q.type = t
  cases t <;> decide

theorem owning (hown : (((s.ordered c i q).cores d).mode d).owns = true)
    (hd : (s.ordered c i q).Served d) : (s.ordered c i q).dir.heir = some d := by
  rcases eq_or_ne d c with rfl | hdc
  · by_cases hq : q.type = .UPG
    · rw [h.mode_own, hq] at hown
      rcases h.state_of_upg hq with ⟨hsh, hD, -⟩ | hlost
      · rw [h.heir_of_upg hq, h.owner_of_shares hsh hD]
        rfl
      · -- an UPG that is too late leads to a new request
        revert hlost hown
        generalize (s.cores d).state = st
        cases st <;> simp [CacheState.lost, CacheState.owns, msiOwn]
    · exact absurd rfl (hd.2 _ (own_mem_backlog (h.wantsData_of_ne hq)))
  · rw [h.mode_other hdc, msiSnooped_owns (h.coherent.live d)] at hown
    have ho := (h.coherent.owning d (h.mode_eq d ▸ hown) (served hdc hd)).1
    rw [h.heir_eq] at ho
    exact Dir.heir_of_owner ho

theorem sharing (hsh : (((s.ordered c i q).cores d).mode d).shares = true)
    (hd : (s.ordered c i q).Served d) : (s.ordered c i q).dir.heir = none := by
  have hq : q.type ≠ .UPG := by
    intro hq
    rcases eq_or_ne d c with rfl | hdc
    · rw [h.mode_own, hq] at hsh
      have := h.state_of_upg hq
      revert this hsh
      generalize (s.cores d).state = st
      revert st
      decide
    · rw [h.mode_other hdc, msiSnooped_not_shares (h.coherent.live d) (.inr hq)] at hsh
      cases hsh
  rw [h.heir_of_ne hq, ← h.heir_eq]
  rcases eq_or_ne d c with rfl | hdc
  · exact absurd rfl (hd.2 _ (own_mem_backlog (h.wantsData_of_ne hq)))
  · rw [h.mode_other hdc] at hsh
    have hsh := msiSnooped_shares (h.coherent.live d) hsh
    exact (h.coherent.sharing d (h.mode_eq d ▸ hsh) (served hdc hd)).resolve_right
      fun hne => hne h.idle.1

/-- An L1 whose UPG comes too late is the one that has just been ordered. -/
theorem lost (hd : ((s.ordered c i q).cores d).Lost d) : d = c := by
  rcases hd with ⟨q', hq', hs⟩ | ⟨-, m, hm, hc, -⟩
  · by_contra hdc
    rw [cores_same.2.2.2.2, if_neg hdc] at hq'
    exact hdc (h.of_hasSide ⟨q', hq', hs⟩).1
  · rw [cores_requestToCache h.seen, mem_singleton] at hm
    rw [hm] at hc
    exact hc.symm

theorem owner (hd : (s.ordered c i q).dir.heir = some d) :
    (((s.ordered c i q).cores d).mode d).owns = true ∧ (s.ordered c i q).Served d ∨
      (s.ordered c i q).Reclaims d := by
  by_cases ho : s.dir.owner = some d
  · rcases h.coherent.owner d (Dir.heir_of_owner ho) h.idle.1 with ⟨hown, hserved⟩ | hre | hre
    · rw [h.mode_eq d] at hown
      have hdc : d ≠ c := by
        rintro rfl
        by_cases hq : q.type = .UPG
        · have := h.state_of_upg hq
          revert this hown
          generalize (s.cores d).state = st
          revert st
          decide
        · exact hserved.1 ⟨q, h.mem_queued, h.wantsData_of_ne hq⟩
      refine .inl ⟨?_, (asks_iff hdc).not.mpr hserved.1, ?_⟩
      · rwa [h.mode_other hdc, msiSnooped_owns (h.coherent.live d)]
      · rw [backlog_eq]
        intro m hm
        rcases mem_append.mp hm with hm | hm
        · exact hserved.2 m hm
        · split at hm
          · rw [mem_singleton.mp hm]
            exact fun hc => hdc hc.symm
          · cases hm
    · -- the side packet goes first
      obtain ⟨hb, hlost, hM⟩ := hre
      have hside : (s.cores d).HasSide := by
        refine hlost.resolve_right ?_
        rintro ⟨-, m, hm, -⟩
        rw [(h.seen.1 d).1] at hm
        cases hm
      obtain ⟨rfl, hq⟩ := h.of_hasSide hside
      refine .inr (.inr ⟨hM ho, ?_, by rw [h.requestToDir_eq, hq]⟩)
      rw [eq_nil_iff_forall_not_mem]
      intro m hm
      have : m ∈ s.dir.backlog := Dir.mem_backlog.mpr ⟨.inl hm, h.coherent.stalled m hm⟩
      rw [hb] at this
      cases this
    · have := hre.2.2
      rw [h.seen.2.1] at this
      cases this
  · -- an UPG without an owner
    have hq : q.type = .UPG := by
      by_contra hq
      rw [h.heir_of_ne hq] at hd
      exact ho hd
    rw [h.heir_of_upg hq] at hd
    have hnone : s.dir.owner = none := by
      cases hown : s.dir.owner with
      | none => rfl
      | some o =>
        rw [hown] at hd ho
        exact absurd hd ho
    obtain rfl : c = d := by
      rw [hnone] at hd
      exact Option.some.inj hd
    rcases h.state_of_upg hq with ⟨hsh, hD, hown⟩ | hlost
    · refine .inl ⟨by rw [h.mode_own, hq]; exact hown, served_upg hq ?_⟩
      exact h.coherent.served (CacheState.data_of_shares hsh hD)
    · refine .inr (.inl ⟨?_, .inr ⟨by rwa [cores_same.1], ⟨q.type, c⟩, ?_, rfl, hq⟩, ?_⟩)
      · rw [backlog_of_upg hq, h.backlog_of_not_owned hnone]
      · rw [cores_requestToCache h.seen]
        exact mem_singleton_self _
      · intro ho'
        exact absurd ho' ho

theorem heeded (ha : ¬ ((s.ordered c i q).cores d).Asks) {m : RequestMsg n}
    (hm : m ∈ behind d (s.ordered c i q).dir.backlog)
    (hh : ((s.ordered c i q).cores d).state.heeds m.type) :
    m ∈ ((s.ordered c i q).cores d).unseen := by
  rw [cores_same.1] at hh
  rw [L1.unseen, cores_same.2.1, cores_requestToCache h.seen]
  have hold : ¬ (s.cores d).Asks → m ∈ behind d s.dir.backlog →
      m ∈ (s.cores d).stalled ++ [⟨q.type, c⟩] := by
    intro ha hm
    have := h.coherent.heeded d ha m hm hh
    rw [L1.unseen, (h.seen.1 d).1, append_nil] at this
    exact mem_append_left _ this
  by_cases hq : q.type = .UPG
  · rw [backlog_of_upg hq] at hm
    refine hold (fun has => ha ?_) hm
    obtain ⟨q', hq', hw⟩ := has
    refine ⟨q', ?_, hw⟩
    rw [cores_same.2.2.2.2]
    split
    · -- the UPG is not a data request
      rename_i hdc
      subst hdc
      obtain ⟨k, hk, rfl⟩ := mem_iff_getElem.mp hq'
      refine mem_eraseIdx_iff_getElem.mpr ⟨k, hk, ?_, rfl⟩
      rintro rfl
      have := h.queued
      rw [getElem?_eq_getElem hk] at this
      rw [Option.some.inj this, hq] at hw
      cases hw
    · exact hq'
  · have hw := h.wantsData_of_ne hq
    rw [backlog_eq, if_pos hw, behind_append] at hm
    split at hm
    · cases hm
    · rename_i hdc
      rcases mem_cons.mp hm with rfl | hm
      · exact mem_append_right _ (mem_singleton_self _)
      · exact hold ((asks_iff fun hd => hdc hd.symm).not.mp ha) hm

theorem awaited {m : RequestMsg n} (hm : m ∈ (s.ordered c i q).dir.backlog) :
    (((s.ordered c i q).cores m.requestor).mode m.requestor).awaits m.type = true := by
  rw [backlog_eq] at hm
  rcases mem_append.mp hm with hold | hnew
  · have ha := h.coherent.awaited m hold
    rw [h.mode_eq] at ha
    have hmc : m.requestor ≠ c := by
      rintro rfl
      by_cases hq : q.type = .UPG
      · have := h.state_of_upg hq
        revert this ha
        generalize (s.cores m.requestor).state = st
        cases m.type <;> revert st <;> decide
      · exact h.coherent.accounted.not_asks hold ⟨q, h.mem_queued, h.wantsData_of_ne hq⟩
    rw [h.mode_other hmc, msiSnooped_awaits (h.coherent.live _)]
    exact ha
  · split at hnew
    · rename_i hw
      rw [mem_singleton.mp hnew, h.mode_own]
      exact msiOwn_awaits ((h.coherent.core c).asked q h.mem_queued) hw
    · cases hnew

theorem orderly (d : Fin n) : ((s.ordered c i q).cores d).Orderly d := by
  obtain ⟨hst, hstalled, hwait, hWB, hq⟩ := cores_same (s := s) (c := c) (i := i) (q := q) (d := d)
  refine ⟨?_, ?_, ?_, ?_⟩
  · rw [hstalled, hst, hwait]
    exact (h.coherent.core d).recorded
  · intro q' hq'
    rw [hst]
    rw [hq] at hq'
    refine (h.coherent.core d).asked q' ?_
    split at hq'
    · rename_i hdc
      rw [hdc]
      exact mem_of_mem_eraseIdx hq'
    · exact hq'
  · -- the side packet has just been ordered
    rintro - ⟨q', hq', hs⟩
    exfalso
    rw [hq] at hq'
    have hmem : q' ∈ (s.cores d).requestFromCache := by
      split at hq'
      · rename_i hdc
        rw [hdc]
        exact mem_of_mem_eraseIdx hq'
      · exact hq'
    obtain ⟨rfl, hqt⟩ := h.of_hasSide ⟨q', hmem, hs⟩
    refine h.not_asks (by rw [hqt]; rfl) ⟨q', by rw [hq]; exact hq', ?_⟩
    have := (h.coherent.core d).asked q' hmem
    obtain ⟨t, side⟩ := q'
    obtain rfl : side = true := hs
    cases t <;> first | rfl | cases this
  · intro m hm hc
    rw [cores_requestToCache h.seen, mem_singleton] at hm
    subst hm
    obtain rfl : c = d := hc
    refine ⟨.inl (cores_requestToCache h.seen), fun ht => ?_, h.not_asks, hWB.trans (h.seen.1 c).2⟩
    rw [hst]
    have ha := (h.coherent.core c).asked q h.mem_queued
    obtain ⟨t, side⟩ := q
    obtain rfl : t = .GETM := ht
    revert ha
    generalize (s.cores c).state = st
    cases side <;> revert st <;> decide

theorem isCoherent : (s.ordered c i q).Coherent where
  accounted := h.accounted
  core := h.orderly
  shape := by
    cases h.coherent.shape with
    | idle h1 h2 h3 h4 h5 h6 => exact .idle h1 h2 h3 h4 h5 h6
    | reading o h1 h2 h3 h4 h5 => exact .reading o h1 h2 h3 h4 h5
    | granting o h1 h2 h3 h4 h5 => exact .granting o h1 h2 h3 h4 h5
    | owned o h1 h2 h3 h4 h5 h6 =>
      exact .owned o (.inl (h1.resolve_right fun hMI => h.state_ne_MI hMI.1)) h2 h3 h4 h5 h6
    | recalling o h1 h2 h3 h4 h5 => exact .recalling o h1 h2 h3 h4 h5
    | writingBack o b h1 h2 h3 =>
      rw [h.idle.1] at h3
      cases h3
  owning := fun _ ho hc => ⟨h.owning ho hc, h.idle.1⟩
  sharing := fun _ hs hc => .inl (h.sharing hs hc)
  owner := fun _ ho _ => h.owner ho
  heeded := fun _ ha _ => h.heeded ha
  awaited := fun _ => h.awaited
  fetched := by
    intro d _ hd
    rw [show (s.ordered c i q).dir.fetching = [] from h.fetching] at hd
    cases hd
  lost := fun d d' hd hd' => (h.lost hd).trans (h.lost hd').symm
  last := by
    intro d m hm hc hw
    rw [cores_requestToCache h.seen, mem_singleton] at hm
    subst hm
    rw [backlog_eq, if_pos hw, behind_append, if_pos hc]
  granted := by
    intro d m hm hc ht hsh
    rw [cores_requestToCache h.seen, mem_singleton] at hm
    subst hm
    obtain rfl : c = d := hc
    rw [cores_same.1] at hsh
    rw [backlog_of_upg ht, h.backlog_of_not_owned]
    rcases h.state_of_upg ht with ⟨-, hD, -⟩ | hlost
    · exact h.owner_of_shares hsh hD
    · revert hsh hlost
      generalize (s.cores c).state = st
      cases st <;> simp [CacheState.shares, CacheState.lost]
  stalled := h.coherent.stalled
  upg := by
    intro m hm _
    rw [h.requestToDir_eq, mem_singleton] at hm
    exact ⟨hm ▸ h.requestToDir_eq, h.fetching, h.seen.2.2⟩
  putm := by
    rintro d ⟨m, hm, -⟩
    rw [cores_same.2.2.2.1, (h.seen.1 d).2] at hm
    cases hm
  putmWaits := by
    intro m hm
    rw [show (s.ordered c i q).dir.requestToDirWB = [] from h.seen.2.2] at hm
    cases hm
  released := fun hs => absurd hs h.state_ne_MI

end After

end Line.AtSlot

/-! ## Ordering a PUTM -/

/-- The PUTM of `c` is put into all input buffers. -/
theorem Line.Coherent.orderWB {s : Line n β} (h : s.Coherent) {c : Fin n} (hseen : s.Seen)
    (hidle : s.MemoryIdle) (hq : (s.cores c).requestFromCacheWB ≠ 0)
    (hacc : (s.orderedWB c).Accounted False) : (s.orderedWB c).Coherent := by
  have hsame : ∀ d, ((s.orderedWB c).cores d).state = (s.cores d).state ∧
      ((s.orderedWB c).cores d).requestFromCache = (s.cores d).requestFromCache ∧
      ((s.orderedWB c).cores d).requestToCache = (s.cores d).requestToCache ∧
      ((s.orderedWB c).cores d).stalled = (s.cores d).stalled ∧
      ((s.orderedWB c).cores d).waiting = (s.cores d).waiting ∧
      ((s.orderedWB c).cores d).requestToCacheWB = (s.cores d).requestToCacheWB ++ [⟨.PUTM, c⟩] := by
    intro d
    by_cases hd : d = c
    · subst hd
      simp [Line.orderedWB, Line.broadcastWB, Line.setCore]
    · simp [Line.orderedWB, Line.broadcastWB, Line.setCore, hd]
  have hnil : ∀ d, ((s.orderedWB c).cores d).requestToCache = [] := fun d =>
    (hsame d).2.2.1.trans (hseen.1 d).1
  have hmode : ∀ d, ((s.orderedWB c).cores d).mode d = (s.cores d).mode d := by
    intro d
    rw [L1.mode, L1.mode, (hsame d).1, (hsame d).2.2.1]
  have hasks : ∀ d, ((s.orderedWB c).cores d).Asks ↔ (s.cores d).Asks := fun d =>
    L1.asks_congr (hsame d).2.1
  have hlost : ∀ d, ((s.orderedWB c).cores d).Lost d ↔ (s.cores d).Lost d := by
    intro d
    unfold L1.Lost
    rw [L1.hasSide_congr (hsame d).2.1, (hsame d).1, (hsame d).2.2.1]
  have hserved : ∀ d, (s.orderedWB c).Served d ↔ s.Served d := fun d =>
    and_congr_left' (hasks d).not
  -- the owner's earlier PUTM has been seen
  have hMI : s.dir.state ≠ .MI := by
    intro hs
    obtain ⟨d, -, m, hm, -⟩ := h.released hs hidle.1
    rw [(hseen.1 d).2] at hm
    cases hm
  have hdata : (s.cores c).state.tally.data = 0 := by
    have hputm := (h.accounted.core c).counts.putm
    unfold L1.undeliveredPutm at hputm
    have htab : ∀ s : CacheState, s.tally.putm ≠ 0 → s.tally.data = 0 := by decide
    exact htab _ (by omega)
  exact {
    accounted := hacc
    core := by
      intro d
      obtain ⟨h1, h2, h3, h4, h5, -⟩ := hsame d
      refine ⟨by rw [h4, h1, h5]; exact (h.core d).recorded, by rw [h2, h1]; exact (h.core d).asked,
        fun _ _ => hnil d, fun m hm => ?_⟩
      rw [hnil d] at hm
      cases hm
    shape := h.shape.congr rfl rfl rfl rfl id rfl rfl
    owning := fun d ho hd => h.owning d (hmode d ▸ ho) ((hserved d).mp hd)
    sharing := fun d hs hd => h.sharing d (hmode d ▸ hs) ((hserved d).mp hd)
    owner := by
      intro d ho hw
      rw [hmode d, hserved d]
      refine (h.owner d ho hw).imp_right fun hre => ?_
      unfold Line.Reclaims at hre ⊢
      rw [hlost d]
      exact hre
    heeded := by
      intro d hd m hm hh
      rw [L1.unseen, (hsame d).2.2.2.1, (hsame d).2.2.1]
      exact h.heeded d ((hasks d).not.mp hd) m hm ((hsame d).1 ▸ hh)
    awaited := by
      intro m hm
      rw [hmode]
      exact h.awaited m hm
    fetched := by
      intro d ho hd
      rw [hmode]
      exact h.fetched d ho hd
    lost := fun d d' hd hd' => h.lost d d' ((hlost d).mp hd) ((hlost d').mp hd')
    last := fun d m hm => by rw [hnil d] at hm; cases hm
    granted := fun d m hm => by rw [hnil d] at hm; cases hm
    stalled := h.stalled
    upg := by
      intro m hm
      rw [show (s.orderedWB c).dir.requestToDir = [] from hseen.2.1] at hm
      cases hm
    putm := fun d _ => ⟨hnil d, hseen.2.1⟩
    putmWaits := by
      intro m hm
      have hdir : (s.orderedWB c).dir.requestToDirWB = [⟨.PUTM, c⟩] := by
        show s.dir.requestToDirWB ++ _ = _
        rw [hseen.2.2, nil_append]
      rw [hdir, mem_singleton] at hm
      subst hm
      refine ⟨hdir, hMI, (h.served hdata).2, fun _ _ => ⟨⟨.PUTM, c⟩, ?_, rfl⟩⟩
      rw [(hsame c).2.2.2.2.2]
      exact mem_append_right _ (mem_singleton_self _)
    released := fun hs => absurd hs hMI }

/-! ## Seeing the own PUTM -/

/-- What the own PUTM does to the owner. -/
theorem Msi.OwnWB.released {c : Fin n} {l : L1 n β} {i : ℕ} {x : Firing n β} (hx : Msi.OwnWB l i x)
    (ho : l.Orderly c) : (l.state = .MI_A ∧ x.line.state = .I ∨ l.state = .MS_A ∧ x.line.state = .S) ∧
      x.wb = [l.dataBlk] ∧ x.line.requestFromCache = l.requestFromCache ∧
      x.line.requestToCache = l.requestToCache ∧ x.line.stalled = [] ∧ l.stalled = [] ∧
      x.line.requestToCacheWB = l.requestToCacheWB.eraseIdx i ∧
      x.line.responseToCache = l.responseToCache := by
  cases hx with
  | invalidate hs hx =>
    have hh : ¬ l.state.holds := by rw [hs]; decide
    subst hx
    exact ⟨.inl ⟨hs, rfl⟩, rfl, rfl, by simp [(ho.woken_eq_nil hh).1], (ho.woken_eq_nil hh).2,
      ho.stalled_eq_nil hh, rfl, rfl⟩
  | share hs hx =>
    have hh : ¬ l.state.holds := by rw [hs]; decide
    subst hx
    exact ⟨.inr ⟨hs, rfl⟩, rfl, rfl, by simp [(ho.woken_eq_nil hh).1], (ho.woken_eq_nil hh).2,
      ho.stalled_eq_nil hh, rfl, rfl⟩

/-- The owner sees its PUTM and sends its data to the directory. -/
theorem Line.Coherent.ownWB {s : Line n β} (h : s.Coherent) {c : Fin n} {i : ℕ} {m : RequestMsg n}
    {x : Firing n β} (hm : (s.cores c).requestToCacheWB[i]? = some m) (hc : m.requestor = c)
    (hx : Msi.OwnWB (s.cores c) i x) (hacc : (s.commit c x).Accounted False) :
    (s.commit c x).Coherent := by
  obtain ⟨hst, hwb, hq, hd, hstalled, hstalled', hdWB, -⟩ := hx.released (h.core c)
  have hrel : s.Releases c := ⟨m, mem_of_getElem? hm, hc⟩
  obtain ⟨hnil, hdirnil⟩ := h.putm c hrel
  obtain ⟨ho, hw, hf⟩ := h.idle_of_releases hrel
  have hheir : s.dir.heir = some c := Dir.heir_of_owner ho
  have hwb' : (s.commit c x).dir.responseToDir = [(c, (s.cores c).dataBlk)] := by
    simp [Line.commit, hw, hwb]
  have hne : (s.commit c x).dir.responseToDir ≠ [] := by rw [hwb']; exact cons_ne_nil _ _
  have hcore : (s.commit c x).cores c = x.line := if_pos rfl
  have hother : ∀ d, d ≠ c → (s.cores d).Same ((s.commit c x).cores d) := by
    intro d hdc
    simp only [Line.commit, if_neg hdc]
    exact ⟨rfl, rfl, rfl, rfl, rfl, rfl⟩
  have hmode : (x.line.mode c).owns = false ∧ x.line.state.lost = false ∧
      x.line.state ≠ .IM_D ∧ (s.cores c).state.tally.data = 0 := by
    rw [L1.mode_eq_state (hd.trans hnil)]
    rcases hst with ⟨h1, h2⟩ | ⟨h1, h2⟩ <;> rw [h1, h2] <;> decide
  have hna : ¬ (s.cores c).Asks := (h.served hmode.2.2.2).1
  have hasks : ∀ d, ((s.commit c x).cores d).Asks → (s.cores d).Asks := by
    intro d hd
    rcases eq_or_ne d c with rfl | hdc
    · rw [hcore] at hd
      exact (L1.asks_congr hq).mp hd
    · exact (hother d hdc).asks_iff.mp hd
  have hsub : ∀ d, ∀ m' ∈ ((s.commit c x).cores d).requestToCacheWB,
      m' ∈ (s.cores d).requestToCacheWB := by
    intro d m' hm'
    rcases eq_or_ne d c with rfl | hdc
    · rw [hcore, hdWB] at hm'
      exact mem_of_mem_eraseIdx hm'
    · rwa [(hother d hdc).requestToCacheWB] at hm'
  have hlost : ∀ d, ((s.commit c x).cores d).Lost d → (s.cores d).Lost d := by
    intro d hd
    rcases eq_or_ne d c with rfl | hdc
    · rw [hcore] at hd
      rcases hd with hs | ⟨hl, -⟩
      · exact .inl ((L1.hasSide_congr hq).mp hs)
      · rw [hmode.2.1] at hl
        cases hl
    · exact (hother d hdc).lost_iff.mp hd
  exact {
    accounted := hacc
    core := by
      intro d
      rcases eq_or_ne d c with rfl | hdc
      · rw [hcore]
        refine ⟨.inl hstalled, ?_, fun hD => absurd hD hmode.2.2.1, fun m' hm' => ?_⟩
        · rw [hq]
          exact (h.core d).asked_of_not_asks hna _
        · rw [hd, hnil] at hm'
          cases hm'
      · exact (hother d hdc).orderly (h.core d)
    shape := by
      cases h.shape with
      | owned o h1 h2 h3 h4 h5 h6 =>
        refine .writingBack c _ (.inl ⟨h1.imp_right And.left, h4⟩) ho hwb' hdirnil hf ?_
        show s.dir.tbe = decide (s.dir.state = .M_D)
        rcases h1 with h1 | h1 <;> simp [h6, h1]
      | recalling o h1 h2 h3 h4 h5 =>
        exact .writingBack c _ (.inr h1) ho hwb' hdirnil hf (by
          show s.dir.tbe = decide (s.dir.state = .M_D)
          simp [h5, h1])
      | idle h1 h2 | reading o h1 h2 =>
        rw [ho] at h2
        cases h2
      | granting o h1 h2 h3 h4 =>
        rw [hf] at h4
        cases h4
      | writingBack o b h1 h2 h3 =>
        rw [hw] at h3
        cases h3
    owning := by
      intro d hown hd
      rcases eq_or_ne d c with rfl | hdc
      · rw [hcore, hmode.1] at hown
        cases hown
      · rw [(hother d hdc).mode_eq] at hown
        have := (h.owning d hown ⟨(hother d hdc).asks_iff.not.mp hd.1, hd.2⟩).1
        rw [hheir] at this
        exact absurd (Option.some.inj this).symm hdc
    sharing := fun _ _ _ => .inr hne
    owner := fun _ _ hw' => absurd hw' hne
    heeded := by
      intro d hd m' hm' hh
      rcases eq_or_ne d c with rfl | hdc
      · rw [hcore] at hh ⊢
        have hw' := (Dir.mem_backlog.mp (mem_of_mem_behind hm').1).2
        have := h.heeded d hna m' hm' (by
          rcases hst with ⟨hs, hs'⟩ | ⟨hs, hs'⟩ <;> rw [hs'] at hh <;> rw [hs] <;>
            revert hh hw' <;> generalize m'.type = ty <;> revert ty <;> decide +kernel)
        rw [L1.unseen, hstalled', hnil] at this
        cases this
      · rw [L1.unseen, (hother d hdc).stalled, (hother d hdc).requestToCache]
        exact h.heeded d ((hother d hdc).asks_iff.not.mp hd) m' hm' ((hother d hdc).state ▸ hh)
    awaited := by
      intro m' hm'
      have hmc : m'.requestor ≠ c := (h.served hmode.2.2.2).2 m' hm'
      rw [(hother _ hmc).mode_eq]
      exact h.awaited m' hm'
    fetched := by
      intro d _ hd
      rw [show (s.commit c x).dir.fetching = [] from hf] at hd
      cases hd
    lost := fun d d' hd hd' => h.lost d d' (hlost d hd) (hlost d' hd')
    last := by
      intro d m' hm' hc' hw'
      rcases eq_or_ne d c with rfl | hdc
      · rw [hcore, hd, hnil] at hm'
        cases hm'
      · exact h.last d m' ((hother d hdc).requestToCache ▸ hm') hc' hw'
    granted := by
      intro d m' hm' hc' ht hsh
      rcases eq_or_ne d c with rfl | hdc
      · rw [hcore, hd, hnil] at hm'
        cases hm'
      · exact h.granted d m' ((hother d hdc).requestToCache ▸ hm') hc' ht
          ((hother d hdc).state ▸ hsh)
    stalled := h.stalled
    upg := by
      intro m' hm'
      rw [show (s.commit c x).dir.requestToDir = [] from hdirnil] at hm'
      cases hm'
    putm := by
      rintro d ⟨m', hm', hc'⟩
      refine ⟨?_, hdirnil⟩
      rcases eq_or_ne d c with rfl | hdc
      · rw [hcore, hd, hnil]
      · rw [(hother d hdc).requestToCache]
        exact (h.putm d ⟨m', hsub d m' hm', hc'⟩).1
    putmWaits := by
      intro m' hm'
      obtain ⟨h1, h2, h3, -⟩ := h.putmWaits m' hm'
      exact ⟨h1, h2, h3, fun _ hw' => absurd hw' hne⟩
    released := fun _ hw' => absurd hw' hne }
