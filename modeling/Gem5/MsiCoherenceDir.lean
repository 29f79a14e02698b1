/-
# The coherence invariant and the steps of the directory

Requests, PUTMs and data that the directory takes from its buffers, and the
accesses of its memory.  The L1s only get answers.
-/
import Gem5.MsiCoherenceSteps

open List

variable {n : ℕ} {β : Type}

/-! ## What is left to show -/

/-- The L1 is the same but for the answers it has got. -/
structure L1.Same (l l' : L1 n β) : Prop where
  state : l'.state = l.state
  requestFromCache : l'.requestFromCache = l.requestFromCache
  requestToCache : l'.requestToCache = l.requestToCache
  stalled : l'.stalled = l.stalled
  waiting : l'.waiting = l.waiting
  requestToCacheWB : l'.requestToCacheWB = l.requestToCacheWB

namespace L1.Same

variable {l l' : L1 n β} {c : Fin n}

theorem refl (l : L1 n β) : l.Same l := ⟨rfl, rfl, rfl, rfl, rfl, rfl⟩

theorem mode_eq (h : l.Same l') : l'.mode c = l.mode c := by
  rw [L1.mode, L1.mode, h.state, h.requestToCache]

theorem asks_iff (h : l.Same l') : l'.Asks ↔ l.Asks := L1.asks_congr h.requestFromCache

theorem lost_iff (h : l.Same l') : l'.Lost c ↔ l.Lost c := by
  unfold L1.Lost
  rw [L1.hasSide_congr h.requestFromCache, h.state, h.requestToCache]

theorem orderly (h : l.Same l') (ho : l.Orderly c) : l'.Orderly c where
  recorded := by
    rw [h.stalled, h.state, h.waiting]
    exact ho.recorded
  asked := by
    rw [h.requestFromCache, h.state]
    exact ho.asked
  side := by
    rw [h.state, L1.hasSide_congr h.requestFromCache, h.requestToCache]
    exact ho.side
  own := by
    intro m hm hc
    obtain ⟨h1, h2, h3, h4⟩ := ho.own m (h.requestToCache ▸ hm) hc
    exact ⟨by rwa [h.requestToCache, h.state], by rwa [h.state], fun hw => h.asks_iff.not.mpr (h3 hw),
      h.requestToCacheWB.trans h4⟩

end L1.Same

namespace Line.Coherent

variable {s t : Line n β}

/-- A step of the directory: what is left to show. -/
theorem ofDir (h : s.Coherent) (hacc : t.Accounted False)
    (hx : ∀ d, (s.cores d).Same (t.cores d)) (hshape : t.dir.Shape)
    (hback : ∀ m ∈ t.dir.backlog, m ∈ s.dir.backlog)
    (hbehind : ∀ c, ∀ m ∈ behind c t.dir.backlog, m ∈ behind c s.dir.backlog)
    (howning : ∀ c, ((s.cores c).mode c).owns = true → t.Served c →
      t.dir.heir = some c ∧ t.dir.responseToDir = [])
    (hsharing : ∀ c, ((s.cores c).mode c).shares = true → t.Served c →
      t.dir.heir = none ∨ t.dir.responseToDir ≠ [])
    (howner : ∀ c, t.dir.heir = some c → t.dir.responseToDir = [] →
      ((s.cores c).mode c).owns = true ∧ t.Served c ∨ t.Reclaims c)
    (hfetched : ∀ c, t.dir.owner = none → c ∈ t.dir.fetching →
      ((s.cores c).mode c).awaits .GETS = true)
    (hstalled : ∀ m ∈ t.dir.stalled, m.type.wantsData = true)
    (hupg : ∀ m ∈ t.dir.requestToDir, m.type = .UPG →
      t.dir.requestToDir = [m] ∧ t.dir.fetching = [] ∧ t.dir.requestToDirWB = [])
    (hputm : ∀ c, s.Releases c → t.dir.requestToDir = [])
    (hwaits : ∀ m ∈ t.dir.requestToDirWB, t.PutmWaits m)
    (hreleased : t.dir.state = .MI → t.dir.responseToDir = [] →
      ∃ c, t.dir.owner = some c ∧ s.Releases c) : t.Coherent := by
  have hreleases : ∀ c, t.Releases c ↔ s.Releases c := by
    intro c
    unfold Line.Releases
    rw [(hx c).requestToCacheWB]
  exact {
    accounted := hacc
    core := fun c => (hx c).orderly (h.core c)
    shape := hshape
    owning := fun c ho => howning c ((hx c).mode_eq ▸ ho)
    sharing := fun c hs => hsharing c ((hx c).mode_eq ▸ hs)
    owner := by
      intro c ho hw
      rw [(hx c).mode_eq]
      exact howner c ho hw
    heeded := by
      intro c hc m hm hh
      rw [(hx c).asks_iff] at hc
      rw [(hx c).state] at hh
      rw [L1.unseen, (hx c).stalled, (hx c).requestToCache]
      exact h.heeded c hc m (hbehind c m hm) hh
    awaited := by
      intro m hm
      rw [(hx _).mode_eq]
      exact h.awaited m (hback m hm)
    fetched := by
      intro c ho hc
      rw [(hx c).mode_eq]
      exact hfetched c ho hc
    lost := fun c d hc hd => h.lost c d ((hx c).lost_iff.mp hc) ((hx d).lost_iff.mp hd)
    last := by
      intro c m hm hc hw
      rw [eq_nil_iff_forall_not_mem]
      intro m' hm'
      have := hbehind c m' hm'
      rw [h.last c m ((hx c).requestToCache ▸ hm) hc hw] at this
      cases this
    granted := by
      intro c m hm hc ht hsh
      rw [eq_nil_iff_forall_not_mem]
      intro m' hm'
      have := hback m' hm'
      rw [h.granted c m ((hx c).requestToCache ▸ hm) hc ht ((hx c).state ▸ hsh)] at this
      cases this
    stalled := hstalled
    upg := hupg
    putm := by
      intro c hr
      rw [(hx c).requestToCache]
      exact ⟨(h.putm c ((hreleases c).mp hr)).1, hputm c ((hreleases c).mp hr)⟩
    putmWaits := hwaits
    released := by
      intro hs hw
      obtain ⟨c, ho, hr⟩ := hreleased hs hw
      exact ⟨c, ho, (hreleases c).mpr hr⟩ }

/-- The PUTM still waits if the step touches neither it nor the owner. -/
theorem putmWaits_of (h : s.Coherent) (hx : ∀ d, (s.cores d).Same (t.cores d))
    (hWB : t.dir.requestToDirWB = s.dir.requestToDirWB) (hMI : t.dir.state ≠ .MI ∨
      t.dir.state = s.dir.state) (hback : ∀ m ∈ t.dir.backlog, m ∈ s.dir.backlog)
    (ho : ∀ m ∈ s.dir.requestToDirWB, t.dir.owner = some m.requestor →
      t.dir.responseToDir = [] → s.dir.owner = some m.requestor ∧ s.dir.responseToDir = []) :
    ∀ m ∈ t.dir.requestToDirWB, t.PutmWaits m := by
  intro m hm
  rw [hWB] at hm
  obtain ⟨h1, h2, h3, h4⟩ := h.putmWaits m hm
  refine ⟨hWB.trans h1, ?_, fun m' hm' => h3 m' (hback m' hm'), fun hto htw => ?_⟩
  · rcases hMI with hMI | hMI
    · exact hMI
    · rwa [hMI]
  · obtain ⟨hso, hsw⟩ := ho m hm hto htw
    unfold Line.Releases
    rw [(hx _).requestToCacheWB]
    exact h4 hso hsw

/-- Steps that neither serve a data request nor finish a write-back. -/
theorem ofDir_heir (h : s.Coherent) (hacc : t.Accounted False)
    (hx : ∀ d, (s.cores d).Same (t.cores d)) (hshape : t.dir.Shape)
    (hb : t.dir.backlog = s.dir.backlog) (hh : t.dir.heir = s.dir.heir)
    (hw : t.dir.responseToDir = s.dir.responseToDir)
    (hre : ∀ c, s.dir.heir = some c → s.dir.responseToDir = [] → s.Reclaims c → t.Reclaims c)
    (hfetched : ∀ c, t.dir.owner = none → c ∈ t.dir.fetching →
      ((s.cores c).mode c).awaits .GETS = true)
    (hstalled : ∀ m ∈ t.dir.stalled, m.type.wantsData = true)
    (hupg : ∀ m ∈ t.dir.requestToDir, m.type = .UPG →
      t.dir.requestToDir = [m] ∧ t.dir.fetching = [] ∧ t.dir.requestToDirWB = [])
    (hputm : ∀ c, s.Releases c → t.dir.requestToDir = [])
    (hwaits : ∀ m ∈ t.dir.requestToDirWB, t.PutmWaits m)
    (hreleased : t.dir.state = .MI → t.dir.responseToDir = [] →
      ∃ c, t.dir.owner = some c ∧ s.Releases c) : t.Coherent := by
  have hserved : ∀ c, t.Served c ↔ s.Served c := by
    intro c
    unfold Line.Served
    rw [(hx c).asks_iff, hb]
  refine h.ofDir hacc hx hshape ?_ ?_ ?_ ?_ ?_ hfetched hstalled hupg hputm hwaits hreleased
  · rw [hb]
    exact fun _ => id
  · rw [hb]
    exact fun _ _ => id
  · intro c hown hc
    rw [hh, hw]
    exact h.owning c hown ((hserved c).mp hc)
  · intro c hs hc
    rw [hh, hw]
    exact h.sharing c hs ((hserved c).mp hc)
  · intro c hoc hwc
    rw [hh] at hoc
    rw [hw] at hwc
    rw [hserved]
    exact (h.owner c hoc hwc).imp_right (hre c hoc hwc)

/-- Steps that, in addition, leave the owner alone. -/
theorem ofDir_same (h : s.Coherent) (hacc : t.Accounted False)
    (hx : ∀ d, (s.cores d).Same (t.cores d)) (hshape : t.dir.Shape)
    (hWB : t.dir.requestToDirWB = s.dir.requestToDirWB)
    (hb : t.dir.backlog = s.dir.backlog) (hh : t.dir.heir = s.dir.heir)
    (ho : t.dir.owner = s.dir.owner) (hw : t.dir.responseToDir = s.dir.responseToDir)
    (hre : ∀ c, s.dir.heir = some c → s.Reclaims c → t.Reclaims c)
    (hf : ∀ c ∈ t.dir.fetching, c ∈ s.dir.fetching)
    (hstalled : ∀ m ∈ t.dir.stalled, m.type.wantsData = true)
    (hupg : ∀ m ∈ t.dir.requestToDir, m.type = .UPG → t.dir.requestToDir = s.dir.requestToDir)
    (hnil : s.dir.requestToDir = [] → t.dir.requestToDir = [] ∨ ∀ c, ¬ s.Releases c)
    (hMI : t.dir.state ≠ .MI ∨ t.dir.state = s.dir.state) : t.Coherent := by
  refine h.ofDir_heir hacc hx hshape hb hh hw (fun c hc _ => hre c hc)
    (fun c hoc hc => h.fetched c (ho ▸ hoc) (hf c hc)) hstalled ?_
    (fun c hr => (hnil (h.putm c hr).2).resolve_right fun hno => hno c hr)
    (h.putmWaits_of hx hWB hMI (fun m hm => hb ▸ hm) fun m _ h1 h2 => ⟨ho ▸ h1, hw ▸ h2⟩) ?_
  · intro m hm ht
    have heq := hupg m hm ht
    obtain ⟨h1, h2, h3⟩ := h.upg m (heq ▸ hm) ht
    refine ⟨heq.trans h1, eq_nil_iff_forall_not_mem.mpr fun c hc => ?_, hWB.trans h3⟩
    have := hf c hc
    rw [h2] at this
    cases this
  · intro hs hwt
    rw [ho]
    rcases hMI with hMI | hMI
    · exact absurd hs hMI
    · exact h.released (hMI ▸ hs) (hw ▸ hwt)

end Line.Coherent

theorem Line.same_commitDir (s : Line n β) (x : DirFiring n β) (d : Fin n) :
    (s.cores d).Same ((s.commitDir x).cores d) := ⟨rfl, rfl, rfl, rfl, rfl, rfl⟩

/-- A memory access keeps the fetches. -/
theorem Dir.accessMemory_fetching {d d' : Dir n β} (h : d.accessMemory = some d') :
    d'.fetching = d.fetching ∧ d'.state = d.state ∧ d'.owner = d.owner ∧ d'.tbe = d.tbe ∧
      d'.requestToDir = d.requestToDir ∧ d'.requestToDirWB = d.requestToDirWB ∧
      d'.stalled = d.stalled ∧ d'.responseToDir = d.responseToDir := by
  unfold Dir.accessMemory at h
  split at h
  · cases h
  · rename_i q rest hq
    cases h
    simp [Dir.fetching, hq]
  · rename_i b rest hq
    cases h
    simp [Dir.fetching, hq]

/-- The shape depends on a few fields. -/
theorem Dir.Shape.congr {d d' : Dir n β} (h : d.Shape) (hf : d'.fetching = d.fetching)
    (hs : d'.state = d.state) (ho : d'.owner = d.owner) (ht : d'.tbe = d.tbe)
    (hr : d.requestToDir = [] → d'.requestToDir = []) (hst : d'.stalled = d.stalled)
    (hw : d'.responseToDir = d.responseToDir) : d'.Shape := by
  cases h with
  | idle h1 h2 h3 h4 h5 h6 =>
    exact .idle (hs.trans h1) (ho.trans h2) (hw.trans h3) (hst.trans h4) (hf.trans h5) (ht.trans h6)
  | reading c h1 h2 h3 h4 h5 =>
    exact .reading c (hs.trans h1) (ho.trans h2) (hw.trans h3) (hf.trans h4) (ht.trans h5)
  | granting c h1 h2 h3 h4 h5 =>
    exact .granting c (hs.trans h1) (ho.trans h2) (hw.trans h3) (hf.trans h4) (ht.trans h5)
  | owned c h1 h2 h3 h4 h5 h6 =>
    exact .owned c (by rw [hs]; exact h1.imp_right fun h => ⟨h.1, hr h.2⟩) (ho.trans h2)
      (hw.trans h3) (hst.trans h4) (hf.trans h5) (ht.trans h6)
  | recalling c h1 h2 h3 h4 h5 =>
    exact .recalling c (hs.trans h1) (ho.trans h2) (hw.trans h3) (hf.trans h4) (ht.trans h5)
  | writingBack c b h1 h2 h3 h4 h5 h6 =>
    exact .writingBack c b (by rw [hs, hst]; exact h1) (ho.trans h2) (hw.trans h3) (hr h4)
      (hf.trans h5) (by rw [ht, hs]; exact h6)

/-- Nobody has the line in `I`. -/
theorem Dir.Shape.of_I {d : Dir n β} (h : d.Shape) (hs : d.state = .I) :
    d.owner = none ∧ d.responseToDir = [] ∧ d.stalled = [] ∧ d.fetching = [] ∧ d.tbe = false := by
  cases h with
  | idle h1 h2 h3 h4 h5 h6 => exact ⟨h2, h3, h4, h5, h6⟩
  | writingBack c b h1 | owned c h1 => simp [hs] at h1
  | reading c h1 | granting c h1 | recalling c h1 => rw [hs] at h1; cases h1

/-- While a request is in the port, the directory in `M` or `M_D` has an owner and no write-back
is under way. -/
theorem Dir.Shape.of_M {d : Dir n β} (h : d.Shape) (hr : d.requestToDir ≠ [])
    (hs : d.state = .M ∨ d.state = .M_D) : (∃ o, d.owner = some o) ∧ d.responseToDir = [] ∧
      d.fetching = [] ∧ (d.state = .M → d.stalled = [] ∧ d.tbe = false) := by
  cases h with
  | owned o h1 h2 h3 h4 h5 h6 => exact ⟨⟨o, h2⟩, h3, h5, fun _ => ⟨h4, h6⟩⟩
  | recalling o h1 h2 h3 h4 h5 =>
    refine ⟨⟨o, h2⟩, h3, h4, fun hM => ?_⟩
    rw [h1] at hM
    cases hM
  | writingBack c b h1 h2 h3 h4 => exact absurd h4 hr
  | idle h1 | reading c h1 | granting c h1 => simp [h1] at hs

theorem Dir.fetching_read {d d' : Dir n β} {c : Fin n}
    (hr : d'.responseFromMemory = d.responseFromMemory)
    (hq : d'.requestToMemory = d.requestToMemory ++ [.read c]) :
    d'.fetching = d.fetching ++ [c] := by
  simp [Dir.fetching, hr, hq]

/-! ## Requests -/

section Requests

variable {s : Line n β} {m : RequestMsg n} {rest : List (RequestMsg n)}

/-- A data request at the head of the port excludes an UPG. -/
theorem Line.Coherent.not_upg (h : s.Coherent) (hrest : s.dir.requestToDir = m :: rest)
    (hm : m.type.wantsData = true) : ∀ m' ∈ s.dir.requestToDir, m'.type ≠ .UPG := by
  intro m' hm' ht
  have := (h.upg m' hm' ht).1
  rw [hrest] at this
  rw [(cons_eq_cons.mp this).1, ht] at hm
  cases hm

/-- A write in the backlog leaves no shared copies with those that are served. -/
theorem Line.Coherent.not_shares_of_getm (h : s.Coherent) {c : Fin n} (hm : m ∈ s.dir.backlog)
    (ht : m.type = .GETM) (hc : m.requestor ≠ c) (hs : s.Served c) :
    ((s.cores c).mode c).shares = false := by
  have hbehind : m ∈ behind c s.dir.backlog := mem_behind_of_served hs.2 hm
  -- its own request is not on the bus, or nothing would stand behind it
  have hown : ∀ m' ∈ (s.cores c).requestToCache, m'.requestor = c → m'.type.wantsData = false := by
    intro m' hm' hc'
    rw [Bool.eq_false_iff]
    intro hw
    rw [h.last c m' hm' hc' hw] at hbehind
    cases hbehind
  rw [Bool.eq_false_iff]
  intro hsh
  have hst := CacheState.shares_foldl (h.live c) hown hsh
  have hmem := h.heeded c hs.1 m hbehind (ht ▸ CacheState.heeds_of_shares hst)
  have hnot : ¬ (s.cores c).state.holds := by
    intro hh
    rw [CacheState.not_shares_of_owns (CacheState.owns_of_holds hh)] at hst
    cases hst
  rw [L1.unseen, (h.core c).stalled_eq_nil hnot, nil_append] at hmem
  rw [L1.mode_not_shares (h.live c) hown hmem hc ht] at hsh
  cases hsh

/-- The directory fetches the block for the oldest request of the backlog. -/
theorem Line.Coherent.fetch (h : s.Coherent) {x : DirFiring n β} (s' : DirState)
    (hrest : s.dir.requestToDir = m :: rest) (hm : m.type.wantsData = true)
    (hacc : (s.commitDir x).Accounted False) (hs' : s' = .IS ∨ s' = .IM)
    (hold : s.dir.owner = none ∨ m.type = .GETM ∧ s.dir.owner = some m.requestor)
    (hst : s.dir.stalled = [])
    (hget : (m.type = .GETS ∨ m.type = .GETI) ∧ s' = .IS ∧ x.dir.owner = none ∨
      m.type = .GETM ∧ s' = .IM ∧ x.dir.owner = some m.requestor)
    (hx : x.dir.state = s' ∧ x.dir.tbe = true ∧ x.dir.requestToDir = rest ∧ x.dir.stalled = [] ∧
      x.dir.responseToDir = [] ∧ x.dir.requestToDirWB = s.dir.requestToDirWB ∧
      x.dir.fetching = [m.requestor]) : (s.commitDir x).Coherent := by
  obtain ⟨hxs, hxt, hxr, hxst, hxw, hxWB, hxf⟩ := hx
  have hupg := h.not_upg hrest hm
  have hupg' : ∀ m' ∈ x.dir.requestToDir, m'.type ≠ .UPG := by
    rw [hxr]
    exact fun m' hm' => hupg m' (by rw [hrest]; exact mem_cons_of_mem m hm')
  have hheir : s.dir.heir = s.dir.owner := Dir.heir_eq_owner hupg
  have hheir' : x.dir.heir = x.dir.owner := Dir.heir_eq_owner hupg'
  have hb : s.dir.backlog = m :: x.dir.backlog := by
    simp [Dir.backlog, hst, hxst, hrest, hxr, hm]
  have hmem : m ∈ s.dir.backlog := by rw [hb]; exact mem_cons_self
  have haw := h.awaited m hmem
  have hother : ∀ c, m.requestor ≠ c → (s.commitDir x).Served c → s.Served c := by
    intro c hcm hc
    refine ⟨hc.1, ?_⟩
    rw [hb]
    exact forall_mem_cons.mpr ⟨hcm, hc.2⟩
  have hback : ∀ m' ∈ x.dir.backlog, m' ∈ s.dir.backlog := by
    rw [hb]
    exact fun m' => mem_cons_of_mem m
  have hread : x.dir.owner = none → ((s.cores m.requestor).mode m.requestor).awaits .GETS = true := by
    intro ho
    rcases hget with ⟨ht, -⟩ | ⟨-, -, ho'⟩
    · rcases ht with ht | ht <;> rw [ht] at haw <;> exact haw
    · rw [ho] at ho'
      cases ho'
  refine h.ofDir hacc (s.same_commitDir x) ?_ hback ?_ ?_ ?_ ?_ ?_ ?_ ?_ ?_ ?_ ?_
  · rcases hget with ⟨-, rfl, ho⟩ | ⟨-, rfl, ho⟩
    · exact .reading m.requestor hxs ho hxw hxf hxt
    · exact .granting m.requestor hxs ho hxw hxf hxt
  · rw [hb]
    exact fun c m' => mem_behind_cons
  · -- a served owner would be the directory's
    intro c hown hc
    by_cases hcm : m.requestor = c
    · subst hcm
      rcases hget with ⟨-, -, ho⟩ | ⟨-, -, ho⟩
      · rw [CacheState.not_owns_of_awaits (hread ho)] at hown
        cases hown
      · exact ⟨hheir'.trans ho, hxw⟩
    · have ho := (h.owning c hown (hother c hcm hc)).1
      rw [hheir] at ho
      rcases hold with hnone | ⟨-, ho'⟩
      · rw [hnone] at ho
        cases ho
      · rw [ho'] at ho
        exact absurd (Option.some.inj ho) hcm
  · intro c hsh hc
    rcases hget with ⟨-, -, ho⟩ | ⟨ht, -, -⟩
    · exact .inl (hheir'.trans ho)
    · rw [ht] at haw
      by_cases hcm : m.requestor = c
      · subst hcm
        rw [CacheState.not_shares_of_owns (CacheState.owns_of_awaits haw)] at hsh
        cases hsh
      · exact absurd hsh (Bool.eq_false_iff.mp (h.not_shares_of_getm hmem ht hcm (hother c hcm hc)))
  · intro c hoc _
    rcases hget with ⟨-, -, ho⟩ | ⟨ht, -, ho⟩
    · have : x.dir.heir = some c := hoc
      rw [hheir', ho] at this
      cases this
    · obtain rfl : m.requestor = c := by
        have : x.dir.heir = some c := hoc
        rw [hheir', ho] at this
        exact Option.some.inj this
      rw [ht] at haw
      refine .inl ⟨CacheState.owns_of_awaits haw, hacc.served ?_⟩
      have hle := ((s.commitDir x).cores m.requestor).state.tally_data_le
      have hcount : (s.commitDir x).dir.fetching.count m.requestor = 1 := by
        rw [show (s.commitDir x).dir.fetching = [m.requestor] from hxf]
        simp
      omega
  · intro c hoc hc
    rw [show (s.commitDir x).dir.fetching = [m.requestor] from hxf] at hc
    rw [mem_singleton.mp hc]
    exact hread hoc
  · rw [show (s.commitDir x).dir.stalled = [] from hxst]
    simp
  · exact fun m' hm' ht => absurd ht (hupg' m' hm')
  · intro c hr
    have := (h.putm c hr).2
    rw [hrest] at this
    cases this
  · have hMI : x.dir.state ≠ .MI := by
      rw [hxs]
      rcases hs' with rfl | rfl <;> decide
    refine h.putmWaits_of (s.same_commitDir x) hxWB (.inl hMI) hback fun m' hm' ho _ => ?_
    rcases hget with ⟨-, -, ho'⟩ | ⟨-, -, ho'⟩
    · rw [show (s.commitDir x).dir.owner = none from ho'] at ho
      cases ho
    · rw [show (s.commitDir x).dir.owner = some m.requestor from ho'] at ho
      exact absurd (Option.some.inj ho) ((h.putmWaits m' hm').served m hmem)
  · intro hMI
    rw [show (s.commitDir x).dir.state = s' from hxs] at hMI
    rcases hs' with rfl | rfl <;> cases hMI

/-- The oldest request in the port is served. -/
theorem Msi.DirRequest.coherent {x : DirFiring n β} (hx : Msi.DirRequest s.dir 0 m x)
    (h : s.Coherent) (hm : s.dir.requestToDir[0]? = some m)
    (hacc : (s.commitDir x).Accounted False) : (s.commitDir x).Coherent := by
  obtain ⟨rest, hrest⟩ := eq_cons_of_getElem?_zero hm
  have hne : s.dir.requestToDir ≠ [] := by rw [hrest]; exact cons_ne_nil _ _
  have hmr : m ∈ s.dir.requestToDir := by rw [hrest]; exact mem_cons_self
  have hread : ∀ d : Dir n β, d.responseFromMemory = s.dir.responseFromMemory →
      d.requestToMemory = s.dir.requestToMemory ++ [.read m.requestor] → s.dir.fetching = [] →
      d.fetching = [m.requestor] := by
    intro d h1 h2 hf
    rw [Dir.fetching_read h1 h2, hf]
    rfl
  have hbacklog : m.type.wantsData = true → m ∈ s.dir.backlog := fun hw =>
    Dir.mem_backlog.mpr ⟨.inr hmr, hw⟩
  have hwants : m.type ≠ .UPG → m.type ≠ .PUTM → m.type.wantsData = true := by
    cases m.type <;> simp [CoherenceRequestType.wantsData]
  cases hx with
  | stall hs ht hp ho hx =>
    subst hx
    have hshape : Dir.Shape { s.dir with
        requestToDir := s.dir.requestToDir.eraseIdx 0, stalled := s.dir.stalled ++ [m]
        waiting := true } ∧ (m.type ≠ .UPG) ∧ s.dir.state ≠ .M := by
      cases h.shape with
      | idle h1 => simp [h1] at hs
      | owned c h1 => rcases h1 with h1 | h1 <;> simp [h1] at hs hne
      | writingBack c b h1 h2 h3 h4 => exact absurd h4 hne
      | reading c h1 h2 h3 h4 h5 =>
        refine ⟨.reading c h1 h2 h3 h4 h5, fun hu => ?_, by rw [h1]; decide⟩
        rw [(h.upg m hmr hu).2.1] at h4
        cases h4
      | granting c h1 h2 h3 h4 h5 =>
        refine ⟨.granting c h1 h2 h3 h4 h5, fun hu => ?_, by rw [h1]; decide⟩
        rw [(h.upg m hmr hu).2.1] at h4
        cases h4
      | recalling c h1 h2 h3 h4 h5 =>
        exact ⟨.recalling c h1 h2 h3 h4 h5, ht h1, by rw [h1]; decide⟩
    obtain ⟨hshape, hu, hM⟩ := hshape
    have hw := hwants hu hp
    have hno := h.not_upg hrest hw
    have hno' : ∀ m' ∈ s.dir.requestToDir.eraseIdx 0, m'.type ≠ .UPG :=
      fun m' hm' => hno m' (mem_of_mem_eraseIdx hm')
    refine h.ofDir_same hacc (s.same_commitDir _) hshape rfl ?_ ?_ rfl rfl ?_ (fun _ => id) ?_
      (fun m' hm' ht' => absurd ht' (hno' m' hm')) (fun hnil => absurd hnil hne) (.inr rfl)
    · simp [Line.commitDir, Dir.backlog, hrest]
    · rw [Dir.heir_eq_owner hno]
      exact Dir.heir_eq_owner hno'
    · rintro c - (⟨hb, -⟩ | ⟨hsM, -⟩)
      · have := hbacklog hw
        rw [hb] at this
        cases this
      · exact absurd hsM hM
    · intro m' hm'
      rcases mem_append.mp hm' with hm' | hm'
      · exact h.stalled m' hm'
      · rw [mem_singleton.mp hm']
        exact hw
  | fetchShared hs ht hx =>
    obtain ⟨ho, hw, hst, hf, htbe⟩ := h.shape.of_I hs
    subst hx
    exact h.fetch .IS hrest (by rcases ht with ht | ht <;> rw [ht] <;> rfl) hacc (.inl rfl) (.inl ho)
      hst (.inl ⟨ht, rfl, ho⟩)
      ⟨rfl, rfl, by rw [hrest]; rfl, hst, hw, rfl, hread _ rfl rfl hf⟩
  | fetchOwned hs ht ho hx =>
    obtain ⟨ho, hw, hst, hf, htbe⟩ := h.shape.of_I hs
    subst hx
    exact h.fetch .IM hrest (by rw [ht]; rfl) hacc (.inr rfl) (.inl ho) hst
      (.inr ⟨ht, rfl, rfl⟩) ⟨rfl, rfl, by rw [hrest]; rfl, hst, hw, rfl, hread _ rfl rfl hf⟩
  | fetchOwner hs ht ho hx =>
    obtain ⟨-, hw, hf, -⟩ := h.shape.of_M hne hs
    -- the owner asks although it is served only if its UPG came too late
    have hmem := hbacklog (by rw [ht]; rfl)
    obtain ⟨hM, hst⟩ : s.dir.state = .M ∧ s.dir.stalled = [] := by
      rcases h.owner _ (Dir.heir_of_owner ho) hw with ⟨-, hc⟩ | ⟨hb, -⟩ | ⟨hM, hst, -⟩
      · exact absurd rfl (hc.2 m hmem)
      · rw [hb] at hmem
        cases hmem
      · exact ⟨hM, hst⟩
    subst hx
    exact h.fetch .IM hrest (by rw [ht]; rfl) hacc (.inr rfl) (.inr ⟨ht, ho⟩) hst
      (.inr ⟨ht, rfl, ho⟩) ⟨rfl, by simp [hM], by rw [hrest]; rfl, hst, hw, rfl, hread _ rfl rfl hf⟩
  | await hs hu hp ho hx =>
    obtain ⟨⟨o, hoo⟩, hw, hf, hM⟩ := h.shape.of_M hne (.inl hs)
    have hmem := hbacklog (hwants hu hp)
    subst hx
    refine h.ofDir_same hacc (s.same_commitDir _) (.recalling o rfl hoo hw hf rfl) rfl rfl rfl rfl
      rfl ?_ (fun _ => id) h.stalled (fun _ _ _ => rfl) .inl (.inl (by simp [Line.commitDir]))
    rintro c hc (⟨hb, -⟩ | ⟨-, -, hr⟩)
    · rw [hb] at hmem
      cases hmem
    · -- the request at hand would be the owner's
      rw [hrest] at hr
      obtain rfl := (cons_eq_cons.mp hr).1
      rw [Dir.heir_of_owner hoo] at hc
      exact absurd (hoo.trans hc) (ho rfl)
  | drop hs ht hx =>
    obtain ⟨⟨o, hoo⟩, hw, hf, hM⟩ := h.shape.of_M hne hs
    obtain ⟨hone, -, -⟩ := h.upg m hmr ht
    subst hx
    have hnil : s.dir.requestToDir.eraseIdx 0 = [] := by rw [hone]; rfl
    have hb : Dir.backlog { s.dir with requestToDir := s.dir.requestToDir.eraseIdx 0 } =
        s.dir.backlog := by
      simp [Dir.backlog, hone, ht, CoherenceRequestType.wantsData]
    refine h.ofDir_same hacc (s.same_commitDir _)
      (h.shape.congr rfl rfl rfl rfl (fun hr => absurd hr hne) rfl rfl) rfl hb ?_ rfl rfl ?_
      (fun _ => id) h.stalled ?_ (fun hr => absurd hr hne) (.inr rfl)
    · rw [Dir.heir_of_owner hoo]
      exact Dir.heir_of_owner hoo
    · rintro c hc (⟨hbs, hlost, hown⟩ | ⟨-, -, hr⟩)
      · exact .inl ⟨hb.trans hbs, (s.same_commitDir _ c).lost_iff.mpr hlost, hown⟩
      · rw [hone] at hr
        obtain rfl := (cons_eq_cons.mp hr).1
        cases ht
    · intro m' hm'
      have hm' : m' ∈ s.dir.requestToDir.eraseIdx 0 := hm'
      rw [hnil] at hm'
      cases hm'
  | grant hs ht hx =>
    obtain ⟨ho, hw, hst, hf, htbe⟩ := h.shape.of_I hs
    obtain ⟨hone, -, hWB⟩ := h.upg m hmr ht
    have hnil : s.dir.requestToDir.eraseIdx 0 = [] := by rw [hone]; rfl
    subst hx
    refine h.ofDir_heir hacc (s.same_commitDir _) (.owned m.requestor (.inl rfl) rfl hw hst hf htbe)
      ?_ ?_ rfl ?_ ?_ h.stalled ?_ ?_ ?_ ?_
    · simp [Line.commitDir, Dir.backlog, hone, ht, CoherenceRequestType.wantsData]
    · rw [Dir.heir_of_owner (d := (s.commitDir _).dir) rfl, Dir.heir, ho, hone]
      simp [ht]
    · rintro c hc - (⟨hbs, hlost, -⟩ | ⟨hM, -⟩)
      · refine .inl ⟨?_, (s.same_commitDir _ c).lost_iff.mpr hlost, fun _ => rfl⟩
        simp [Line.commitDir, Dir.backlog, hone, hst]
      · rw [hs] at hM
        cases hM
    · intro c hoc
      cases hoc
    · intro m' hm'
      have hm' : m' ∈ s.dir.requestToDir.eraseIdx 0 := hm'
      rw [hnil] at hm'
      cases hm'
    · exact fun c _ => hnil
    · intro m' hm'
      have hm' : m' ∈ s.dir.requestToDirWB := hm'
      rw [hWB] at hm'
      cases hm'
    · intro hMI
      cases hMI

end Requests

/-! ## PUTMs, data and memory -/

section DirSteps

variable {s : Line n β} {x : DirFiring n β}

/-- While a PUTM is unseen by its issuer, the issuer owns the line and no data is under way. -/
theorem Line.Coherent.idle_of_releases (h : s.Coherent) {c : Fin n} (hr : s.Releases c) :
    s.dir.owner = some c ∧ s.dir.responseToDir = [] ∧ s.dir.fetching = [] := by
  obtain ⟨hnil, hdir⟩ := h.putm c hr
  have hst : (s.cores c).state.owns = true ∧ (s.cores c).state.tally.data = 0 := by
    rcases h.state_of_releases hr with hs | hs <;> rw [hs] <;> decide
  have hheir : s.dir.heir = s.dir.owner := Dir.heir_eq_owner (by rw [hdir]; simp)
  obtain ⟨ho, hw⟩ := h.owning c (L1.mode_eq_state hnil ▸ hst.1) (h.served hst.2)
  rw [hheir] at ho
  refine ⟨ho, hw, ?_⟩
  -- nothing is fetched for an owner that has its data
  cases h.shape with
  | granting o h1 h2 h3 h4 =>
    obtain rfl : o = c := Option.some.inj (h2.symm.trans ho)
    have hp := h.accounted.promised_eq o
    have : s.dir.fetching.count o = 1 := by rw [h4]; simp
    omega
  | reading o h1 h2 =>
    rw [h2] at ho
    cases ho
  | idle h1 h2 h3 h4 h5 | owned o h1 h2 h3 h4 h5 | writingBack o b h1 h2 h3 h4 h5 => exact h5
  | recalling o h1 h2 h3 h4 => exact h4

theorem Line.Coherent.not_lost_of_releases (h : s.Coherent) {c : Fin n} (hr : s.Releases c) :
    ¬ (s.cores c).Lost c := by
  have hst := h.state_of_releases hr
  rintro (hside | ⟨hlost, -⟩)
  · rcases ((h.core c).asks_of_hasSide hside).2 with hs | hs <;> simp [hs] at hst
  · rcases hst with hs | hs <;> rw [hs] at hlost <;> cases hlost

/-- The directory takes the PUTM of its owner. -/
theorem Msi.DirPutm.coherent {m : RequestMsg n} (hx : Msi.DirPutm s.dir 0 x) (h : s.Coherent)
    (hm : s.dir.requestToDirWB[0]? = some m) (ho : s.dir.owner = some m.requestor)
    (hacc : (s.commitDir x).Accounted False) : (s.commitDir x).Coherent := by
  have hmem := mem_of_getElem? hm
  obtain ⟨halone, hMI, hserved, hunseen⟩ := h.putmWaits m hmem
  have hnil : s.dir.requestToDirWB.eraseIdx 0 = [] := by rw [halone]; rfl
  -- the port is empty: the PUTM was ordered after everything in it had been seen
  have hr : s.dir.requestToDir = [] := by
    by_cases hw : s.dir.responseToDir = []
    · exact (h.putm _ (hunseen ho hw)).2
    · cases h.shape with
      | writingBack c b h1 h2 h3 h4 => exact h4
      | idle h1 h2 h3 | reading c h1 h2 h3 | granting c h1 h2 h3 | owned c h1 h2 h3
      | recalling c h1 h2 h3 => exact absurd h3 hw
  cases hx with
  | stall hs hx =>
    exfalso
    rcases hs with hs | hs
    · exact hMI hs
    · cases h.shape with
      | owned c h1 | writingBack c b h1 => simp [hs] at h1
      | idle h1 | reading c h1 | granting c h1 | recalling c h1 => rw [hs] at h1; cases h1
  | pop s' hs hx =>
    subst hx
    refine h.ofDir_heir hacc (s.same_commitDir _) ?_ rfl rfl rfl ?_ h.fetched h.stalled ?_
      (fun _ _ => hr) ?_ ?_
    · cases h.shape with
      | owned c h1 h2 h3 h4 h5 h6 =>
        obtain ⟨hM, rfl⟩ | ⟨hMD, -⟩ := hs
        · exact .owned c (.inr ⟨rfl, hr⟩) h2 h3 h4 h5 h6
        · simp [hMD] at h1
      | recalling c h1 h2 h3 h4 h5 =>
        obtain ⟨hM, -⟩ | ⟨-, rfl⟩ := hs
        · rw [hM] at h1
          cases h1
        · exact .recalling c rfl h2 h3 h4 h5
      | writingBack c b h1 h2 h3 h4 h5 h6 =>
        obtain ⟨hM, rfl⟩ | ⟨hMD, rfl⟩ := hs
        · have hst : s.dir.stalled = [] := by simpa [hM] using h1
          exact .writingBack c b (.inl ⟨.inr rfl, hst⟩) h2 h3 h4 h5 (by simp [Line.commitDir, h6, hM])
        · exact .writingBack c b (.inr rfl) h2 h3 h4 h5 (by simp [Line.commitDir, h6, hMD])
      | idle h1 | reading c h1 | granting c h1 => simp [h1] at hs
    · rintro c hc hw (⟨-, hlost, -⟩ | ⟨-, -, hr'⟩)
      · -- the owner has its data, so no UPG of it came too late
        obtain rfl : m.requestor = c := Option.some.inj ((Dir.heir_of_owner ho).symm.trans hc)
        exact absurd hlost (h.not_lost_of_releases (hunseen ho hw))
      · rw [hr] at hr'
        cases hr'
    · intro m' hm'
      have hm' : m' ∈ s.dir.requestToDir := hm'
      rw [hr] at hm'
      cases hm'
    · intro m' hm'
      have hm' : m' ∈ s.dir.requestToDirWB.eraseIdx 0 := hm'
      rw [hnil] at hm'
      cases hm'
    · intro _ hw
      exact ⟨m.requestor, ho, hunseen ho hw⟩

/-- A PUTM of an L1 that the directory does not know as the owner is dropped. -/
theorem Line.Coherent.dirPutmStale (h : s.Coherent) {m : RequestMsg n}
    (hm : s.dir.requestToDirWB[0]? = some m)
    (hacc : Line.Accounted False
      { s with dir := { s.dir with requestToDirWB := s.dir.requestToDirWB.eraseIdx 0 } }) :
    Line.Coherent
      { s with dir := { s.dir with requestToDirWB := s.dir.requestToDirWB.eraseIdx 0 } } := by
  have hnil : s.dir.requestToDirWB.eraseIdx 0 = [] := by
    rw [(h.putmWaits m (mem_of_getElem? hm)).alone]
    rfl
  refine h.ofDir_heir hacc (fun _ => .refl _) (h.shape.congr rfl rfl rfl rfl id rfl rfl) rfl rfl rfl
    (fun _ _ _ => id) h.fetched h.stalled ?_ (fun c hr => (h.putm c hr).2) ?_ h.released
  · intro m' hm' ht
    exact ⟨(h.upg m' hm' ht).1, (h.upg m' hm' ht).2.1, hnil⟩
  · intro m' hm'
    have hm' : m' ∈ s.dir.requestToDirWB.eraseIdx 0 := hm'
    rw [hnil] at hm'
    cases hm'

/-- The owner's data arrives and the backlog is served again. -/
theorem Line.Coherent.dirResponse (h : s.Coherent) {q : Fin n} {b : β}
    (hm : s.dir.responseToDir[0]? = some (q, b)) (hx : x = s.dir.written 0 b)
    (hacc : (s.commitDir x).Accounted False) : (s.commitDir x).Coherent := by
  subst hx
  have hne : s.dir.responseToDir ≠ [] := ne_nil_of_mem (mem_of_getElem? hm)
  obtain ⟨c, b', hw, hr, hf, htbe⟩ : ∃ c b', s.dir.responseToDir = [(c, b')] ∧
      s.dir.requestToDir = [] ∧ s.dir.fetching = [] ∧ s.dir.tbe = decide (s.dir.state = .M_D) := by
    cases h.shape with
    | writingBack c b h1 h2 h3 h4 h5 h6 => exact ⟨c, b, h3, h4, h5, h6⟩
    | idle h1 h2 h3 | reading c h1 h2 h3 | granting c h1 h2 h3 | owned c h1 h2 h3
    | recalling c h1 h2 h3 => exact absurd h3 hne
  have hb : (s.dir.written 0 b).dir.backlog = s.dir.backlog := by
    simp [Dir.backlog, Dir.written, hr]
  have hr' : (s.dir.written 0 b).dir.requestToDir = s.dir.stalled := by simp [Dir.written, hr]
  have hupg : ∀ m ∈ (s.dir.written 0 b).dir.requestToDir, m.type ≠ .UPG := by
    rw [hr']
    intro m hm ht
    have := h.stalled m hm
    rw [ht] at this
    cases this
  have hheir : (s.dir.written 0 b).dir.heir = none := Dir.heir_eq_owner hupg
  have hfetch : (s.dir.written 0 b).dir.fetching = [] := by
    rw [← hf]
    simp [Dir.fetching, Dir.written]
  refine h.ofDir hacc (s.same_commitDir _) ?_ (fun _ hm => hb ▸ hm) (fun _ _ hm => hb ▸ hm)
    (fun c hown hc => ?_) (fun _ _ _ => .inl hheir) (fun c hc => ?_) (fun c _ hc => ?_) ?_
    (fun m hm ht => absurd ht (hupg m hm)) (fun c hc => ?_) (fun m hm => ?_) (fun hMI => ?_)
  · refine .idle rfl rfl (by rw [Line.commitDir, Dir.written, hw]; rfl) rfl hfetch ?_
    show (s.dir.tbe && decide (s.dir.state ≠ .M_D)) = false
    rw [htbe]
    by_cases hs : s.dir.state = .M_D <;> simp [hs]
  · have hserved : s.Served c := ⟨hc.1, hb ▸ hc.2⟩
    exact absurd (h.owning c hown hserved).2 hne
  · rw [show (s.commitDir (s.dir.written 0 b)).dir.heir = none from hheir] at hc
    cases hc
  · rw [show (s.commitDir (s.dir.written 0 b)).dir.fetching = [] from hfetch] at hc
    cases hc
  · exact fun m hm => absurd hm (by simp [Line.commitDir, Dir.written])
  · exact absurd (h.idle_of_releases hc).2.1 hne
  · obtain ⟨h1, h2, h3, -⟩ := h.putmWaits m hm
    exact ⟨h1, by simp [Line.commitDir, Dir.written], fun m' hm' => h3 m' (hb ▸ hm'),
      fun ho => by cases ho⟩
  · cases hMI

/-- The fetched block is sent and the backlog is served again. -/
theorem Line.Coherent.dirMemoryData (h : s.Coherent) {q : Fin n} {b : β} {s' : DirState}
    (hm : s.dir.responseFromMemory.head? = some (.data q b))
    (hs : s.dir.state = .IS ∧ s' = .I ∨ s.dir.state = .IM ∧ s' = .M) (hr : s.dir.requestToDir = [])
    (hx : x = s.dir.answered q b s') (hacc : (s.commitDir x).Accounted False) :
    (s.commitDir x).Coherent := by
  subst hx
  obtain ⟨rest, hrest⟩ := head?_eq_some_iff.mp hm
  have hfetch : s.dir.fetching = q :: (s.dir.answered q b s').dir.fetching := by
    simp [Dir.fetching, Dir.answered, hrest]
  have hb : (s.dir.answered q b s').dir.backlog = s.dir.backlog := by
    simp [Dir.backlog, Dir.answered, hr]
  have hr' : (s.dir.answered q b s').dir.requestToDir = s.dir.stalled := by
    simp [Dir.answered, hr]
  have hupg : ∀ m ∈ (s.dir.answered q b s').dir.requestToDir, m.type ≠ .UPG := by
    rw [hr']
    intro m hm ht
    have := h.stalled m hm
    rw [ht] at this
    cases this
  refine h.ofDir_same hacc (s.same_commitDir _) ?_ rfl hb ?_ rfl rfl ?_ ?_ ?_
    (fun m hm ht => absurd ht (hupg m hm)) (fun _ => .inr fun c hc => ?_) (.inl ?_)
  · cases h.shape with
    | reading c h1 h2 h3 h4 h5 =>
      obtain ⟨-, rfl⟩ | ⟨hIM, -⟩ := hs
      · rw [h4] at hfetch
        obtain ⟨-, hnil⟩ := cons_eq_cons.mp hfetch
        exact .idle rfl h2 h3 rfl hnil.symm rfl
      · rw [hIM] at h1
        cases h1
    | granting c h1 h2 h3 h4 h5 =>
      obtain ⟨hIS, -⟩ | ⟨-, rfl⟩ := hs
      · rw [hIS] at h1
        cases h1
      · rw [h4] at hfetch
        obtain ⟨-, hnil⟩ := cons_eq_cons.mp hfetch
        exact .owned c (.inl rfl) h2 h3 rfl hnil.symm rfl
    | idle h1 h2 h3 h4 h5 | owned c h1 h2 h3 h4 h5 | recalling c h1 h2 h3 h5
    | writingBack c b h1 h2 h3 h4 h5 =>
      rw [h5] at hfetch
      cases hfetch
  · rw [Dir.heir_eq_owner (d := s.dir) (by rw [hr]; simp)]
    exact Dir.heir_eq_owner hupg
  · -- nobody reclaims the line while the block is fetched
    rintro c hc (⟨-, -, hown⟩ | ⟨hM, -⟩)
    · rw [Dir.heir_eq_owner (d := s.dir) (by rw [hr]; simp)] at hc
      have := hown hc
      simp [this] at hs
    · simp [hM] at hs
  · intro c hc
    rw [hfetch]
    exact mem_cons_of_mem q hc
  · exact fun m hm => absurd hm (by simp [Line.commitDir, Dir.answered])
  · have := (h.idle_of_releases hc).2.2
    rw [hfetch] at this
    cases this
  · show s' ≠ .MI
    rcases hs with ⟨-, rfl⟩ | ⟨-, rfl⟩ <;> decide

theorem Line.Coherent.dirMemoryAck (h : s.Coherent)
    (hm : s.dir.responseFromMemory.head? = some .ack)
    (hx : x = { dir := { s.dir with responseFromMemory := s.dir.responseFromMemory.tail } })
    (hacc : (s.commitDir x).Accounted False) : (s.commitDir x).Coherent := by
  obtain ⟨rest, hrest⟩ := head?_eq_some_iff.mp hm
  have hfetch : x.dir.fetching = s.dir.fetching := by simp [Dir.fetching, hx, hrest]
  subst hx
  refine h.ofDir_same hacc (s.same_commitDir _) (h.shape.congr hfetch rfl rfl rfl id rfl rfl)
    rfl rfl rfl rfl rfl (fun _ _ => id) (fun c hc => ?_) h.stalled (fun _ _ _ => rfl) .inl (.inr rfl)
  rwa [← hfetch]

theorem Line.Coherent.memory (h : s.Coherent) {d : Dir n β} (hd : s.dir.accessMemory = some d)
    (hacc : Line.Accounted False { s with dir := d }) : Line.Coherent { s with dir := d } := by
  obtain ⟨hf, hs, ho, ht, hr, hWB, hst, hw⟩ := Dir.accessMemory_fetching hd
  have hb : d.backlog = s.dir.backlog := by simp only [Dir.backlog, hr, hst]
  refine h.ofDir_same hacc (fun c => .refl _)
    (h.shape.congr hf hs ho ht (fun h => hr.trans h) hst hw) hWB hb ?_ ho hw ?_ ?_
    (fun m hm => h.stalled m (hst ▸ hm)) (fun _ _ _ => hr) (fun h => .inl (hr.trans h)) (.inr hs)
  · simp only [Dir.heir, ho, hr]
  · intro c _ hre
    unfold Line.Reclaims at hre ⊢
    simp only [hb, ho, hs, hst, hr]
    exact hre
  · rw [hf]
    exact fun _ => id

end DirSteps
