/-
# The coherence invariant of an MSI line

Under the TDM discipline a line has, besides what `Line.Accounted` says of its
messages, an owner.  `Line.Coherent` relates the modes of the L1s to the
directory's `owner` field and to its backlog, the data requests that it has
received and not served yet.  The modes know the whole bus order and the
directory serves it later, so the backlog is the part of the order that the
modes know and the directory does not.

* The directory's *heir* is its owner, or the issuer of the UPG in its buffer.
* An L1 whose mode owns the line (`CacheState.owns`) and whose request is served
  is the heir, and no write-back data is under way.
* An L1 whose mode shares the line (`CacheState.shares`) and whose request is
  served excludes an heir, unless the owner's data is on its way to the directory.
* What stands in the backlog behind a request is unseen by the requestor or
  stalled there, or the requestor is in a state that has reacted to it
  (`CacheState.heeds`).
-/
import Mathlib.Data.List.TakeWhile
import Gem5.MsiModes

open List

variable {n : ℕ} {β : Type}

/-! ## The directory -/

/-- The data requests that the directory has received and not served, oldest first. -/
def Dir.backlog (d : Dir n β) : List (RequestMsg n) :=
  (d.stalled ++ d.requestToDir).filter fun m => m.type.wantsData

/-- The owner, once the directory has seen the UPG in its buffer. -/
def Dir.heir (d : Dir n β) : Option (Fin n) :=
  d.owner.or ((d.requestToDir.find? fun m => m.type == .UPG).map RequestMsg.requestor)

/-- The requests behind the last one of `c`, newest first. -/
def behind (c : Fin n) (q : List (RequestMsg n)) : List (RequestMsg n) :=
  q.reverse.takeWhile fun m => decide (m.requestor ≠ c)

section Behind

variable {c : Fin n} {m : RequestMsg n} {q : List (RequestMsg n)}

theorem behind_append (c : Fin n) (q : List (RequestMsg n)) (m : RequestMsg n) :
    behind c (q ++ [m]) = if m.requestor = c then [] else m :: behind c q := by
  unfold behind
  by_cases h : m.requestor = c <;> simp [h]

theorem mem_of_mem_behind (h : m ∈ behind c q) : m ∈ q ∧ m.requestor ≠ c :=
  ⟨mem_reverse.mp (takeWhile_subset _ h), by simpa using mem_takeWhile_imp h⟩

/-- Serving the oldest request leaves less behind. -/
theorem mem_behind_cons {m' : RequestMsg n} (h : m ∈ behind c q) : m ∈ behind c (m' :: q) := by
  unfold behind at h ⊢
  rw [reverse_cons, takeWhile_append]
  split
  · exact mem_append_left _ (( takeWhile_prefix _).subset h)
  · exact h

/-- Everything is behind a request that has been served. -/
theorem mem_behind_of_served (hc : ∀ m ∈ q, m.requestor ≠ c) (h : m ∈ q) : m ∈ behind c q := by
  unfold behind
  rw [takeWhile_eq_self_iff.mpr]
  · exact mem_reverse.mpr h
  · intro m' hm'
    simpa using hc m' (mem_reverse.mp hm')

end Behind

theorem Dir.mem_backlog {d : Dir n β} {m : RequestMsg n} :
    m ∈ d.backlog ↔ (m ∈ d.stalled ∨ m ∈ d.requestToDir) ∧ m.type.wantsData = true := by
  rw [Dir.backlog, mem_filter, mem_append]

theorem Dir.heir_of_owner {d : Dir n β} {c : Fin n} (h : d.owner = some c) : d.heir = some c := by
  rw [Dir.heir, h, Option.some_or]

theorem Dir.heir_eq_owner {d : Dir n β} (h : ∀ m ∈ d.requestToDir, m.type ≠ .UPG) :
    d.heir = d.owner := by
  rw [Dir.heir, find?_eq_none.mpr (by simpa using h), Option.map_none, Option.or_none]

/-- The L1s for which the memory fetches the block, the oldest fetch first. -/
def Dir.fetching (d : Dir n β) : List (Fin n) :=
  (d.responseFromMemory.filterMap fun
    | .data q _ => some q
    | .ack => none) ++
  d.requestToMemory.filterMap fun
    | .read q => some q
    | .write _ => none

/-- The states of the directory in a disciplined run. -/
inductive Dir.Shape (d : Dir n β) : Prop
  | idle (hs : d.state = .I) (ho : d.owner = none) (hw : d.responseToDir = [])
      (hst : d.stalled = []) (hf : d.fetching = []) (ht : d.tbe = false)
  | reading (c : Fin n) (hs : d.state = .IS) (ho : d.owner = none) (hw : d.responseToDir = [])
      (hf : d.fetching = [c]) (ht : d.tbe = true)
  | granting (c : Fin n) (hs : d.state = .IM) (ho : d.owner = some c) (hw : d.responseToDir = [])
      (hf : d.fetching = [c]) (ht : d.tbe = true)
  | owned (c : Fin n) (hs : d.state = .M ∨ d.state = .MI ∧ d.requestToDir = [])
      (ho : d.owner = some c) (hw : d.responseToDir = []) (hst : d.stalled = [])
      (hf : d.fetching = []) (ht : d.tbe = false)
  | recalling (c : Fin n) (hs : d.state = .M_D) (ho : d.owner = some c)
      (hw : d.responseToDir = []) (hf : d.fetching = []) (ht : d.tbe = true)
  | writingBack (c : Fin n) (b : β)
      (hs : (d.state = .M ∨ d.state = .MI) ∧ d.stalled = [] ∨ d.state = .M_D)
      (ho : d.owner = some c) (hw : d.responseToDir = [(c, b)]) (hr : d.requestToDir = [])
      (hf : d.fetching = []) (ht : d.tbe = decide (d.state = .M_D))

/-! ## The L1s -/

/-- A data request of the L1 waits for its slot. -/
def L1.Asks (l : L1 n β) : Prop := ∃ q ∈ l.requestFromCache, q.type.wantsData = true

/-- A side packet of the L1 waits for its slot. -/
def L1.HasSide (l : L1 n β) : Prop := ∃ q ∈ l.requestFromCache, q.side = true

/-- The ordered requests that the L1 has not reacted to. -/
def L1.unseen (l : L1 n β) : List (RequestMsg n) := l.stalled ++ l.requestToCache

/-- The UPG came too late: it has been ordered, and the GETM that makes up for it has not. -/
def L1.Lost (c : Fin n) (l : L1 n β) : Prop :=
  l.HasSide ∨ l.state.lost = true ∧ ∃ m ∈ l.requestToCache, m.requestor = c ∧ m.type = .UPG

/-- The L1 has not seen its own request `m`, which is on the bus. -/
structure L1.OwnUnseen (l : L1 n β) (m : RequestMsg n) : Prop where
  alone : l.requestToCache = [m] ∨ m.type = .GETM ∧ l.state.owns = true
  getm : m.type = .GETM → l.state = .IM_AD ∨ l.state = .IM_A ∨ l.state.owns = true
  ordered : m.type.wantsData = true → ¬ l.Asks
  apart : l.requestToCacheWB = []

/-- What holds of the buffers of one L1. -/
structure L1.Orderly (c : Fin n) (l : L1 n β) : Prop where
  recorded : l.stalled = [] ∨ l.state.holds ∧ l.waiting = some .requestToCache
  asked : ∀ q ∈ l.requestFromCache, l.state.asks q = true
  side : l.state = .IM_D → l.HasSide → l.requestToCache = []
  own : ∀ m ∈ l.requestToCache, m.requestor = c → l.OwnUnseen m

/-! ## The invariant -/

/-- No data request of `c` is queued or in the backlog. -/
def Line.Served (s : Line n β) (c : Fin n) : Prop :=
  ¬ (s.cores c).Asks ∧ ∀ m ∈ s.dir.backlog, m.requestor ≠ c

/-- The directory has granted `c` the line by an UPG that came too late, and serves nobody before
the GETM of `c`. -/
def Line.Reclaims (s : Line n β) (c : Fin n) : Prop :=
  s.dir.backlog = [] ∧ (s.cores c).Lost c ∧ (s.dir.owner = some c → s.dir.state = .M) ∨
    s.dir.state = .M ∧ s.dir.stalled = [] ∧ s.dir.requestToDir = [⟨.GETM, c⟩]

/-- The PUTM of `c` is on the bus and `c` has not seen it. -/
def Line.Releases (s : Line n β) (c : Fin n) : Prop :=
  ∃ m ∈ (s.cores c).requestToCacheWB, m.requestor = c

/-- The PUTM `m` waits at the directory. -/
structure Line.PutmWaits (s : Line n β) (m : RequestMsg n) : Prop where
  alone : s.dir.requestToDirWB = [m]
  state : s.dir.state ≠ .MI
  served : ∀ m' ∈ s.dir.backlog, m'.requestor ≠ m.requestor
  unseen : s.dir.owner = some m.requestor → s.dir.responseToDir = [] → s.Releases m.requestor

/-- **The coherence invariant** of a line under the TDM discipline. -/
structure Line.Coherent (s : Line n β) : Prop where
  accounted : s.Accounted False
  core : ∀ c, (s.cores c).Orderly c
  shape : s.dir.Shape
  owning : ∀ c, ((s.cores c).mode c).owns = true → s.Served c →
    s.dir.heir = some c ∧ s.dir.responseToDir = []
  sharing : ∀ c, ((s.cores c).mode c).shares = true → s.Served c →
    s.dir.heir = none ∨ s.dir.responseToDir ≠ []
  owner : ∀ c, s.dir.heir = some c → s.dir.responseToDir = [] →
    ((s.cores c).mode c).owns = true ∧ s.Served c ∨ s.Reclaims c
  heeded : ∀ c, ¬ (s.cores c).Asks → ∀ m ∈ behind c s.dir.backlog,
    (s.cores c).state.heeds m.type → m ∈ (s.cores c).unseen
  awaited : ∀ m ∈ s.dir.backlog, ((s.cores m.requestor).mode m.requestor).awaits m.type = true
  fetched : ∀ c, s.dir.owner = none → c ∈ s.dir.fetching →
    ((s.cores c).mode c).awaits .GETS = true
  lost : ∀ c d, (s.cores c).Lost c → (s.cores d).Lost d → c = d
  last : ∀ c, ∀ m ∈ (s.cores c).requestToCache, m.requestor = c → m.type.wantsData = true →
    behind c s.dir.backlog = []
  granted : ∀ c, ∀ m ∈ (s.cores c).requestToCache, m.requestor = c → m.type = .UPG →
    (s.cores c).state.shares = true → s.dir.backlog = []
  stalled : ∀ m ∈ s.dir.stalled, m.type.wantsData = true
  upg : ∀ m ∈ s.dir.requestToDir, m.type = .UPG →
    s.dir.requestToDir = [m] ∧ s.dir.fetching = [] ∧ s.dir.requestToDirWB = []
  putm : ∀ c, s.Releases c → (s.cores c).requestToCache = [] ∧ s.dir.requestToDir = []
  putmWaits : ∀ m ∈ s.dir.requestToDirWB, s.PutmWaits m
  released : s.dir.state = .MI → s.dir.responseToDir = [] →
    ∃ c, s.dir.owner = some c ∧ s.Releases c

/-! ## What the accounts say -/

/-- The fetches counted per L1. -/
theorem Dir.count_fetching (d : Dir n β) (c : Fin n) :
    d.fetching.count c = d.requestToMemory.countP (MemoryRequest.isReadFor c) +
      d.responseFromMemory.countP (MemoryResponse.isDataFor c) := by
  unfold Dir.fetching
  rw [count_append, count_filterMap, count_filterMap, add_comm]
  congr 1
  · refine countP_congr fun m _ => ?_
    cases m <;> simp [MemoryRequest.isReadFor]
  · refine countP_congr fun m _ => ?_
    cases m <;> simp [MemoryResponse.isDataFor]

theorem Dir.countP_backlog (d : Dir n β) (c : Fin n) :
    d.backlog.countP (RequestMsg.wantsDataFor c) =
      d.stalled.countP (RequestMsg.wantsDataFor c) +
        d.requestToDir.countP (RequestMsg.wantsDataFor c) := by
  rw [Dir.backlog, countP_filter, ← countP_append]
  refine countP_congr fun m _ => ?_
  simp [RequestMsg.wantsDataFor]

section Accounts

variable {s : Line n β} {c : Fin n} {late : Prop}

/-- Data requests of `c` that wait for their slot or at the directory, and the data fetched or
sent for it, make up what its state waits for. -/
theorem Line.Accounted.promised_eq (h : s.Accounted late) (c : Fin n) :
    (s.cores c).requestFromCache.countP (fun q => q.type.wantsData) +
        s.dir.backlog.countP (RequestMsg.wantsDataFor c) +
      ((s.cores c).responseToCache.length + s.dir.fetching.count c) =
      (s.cores c).state.tally.data := by
  have hp := h.promised c
  unfold L1.promised Dir.promised at hp
  rw [Dir.count_fetching, Dir.countP_backlog]
  omega

/-- A core whose data is on its way, or that waits for none, is served. -/
theorem Line.Accounted.served (h : s.Accounted late)
    (hc : (s.cores c).state.tally.data ≤
      (s.cores c).responseToCache.length + s.dir.fetching.count c) : s.Served c := by
  have hp := h.promised_eq c
  have hq : (s.cores c).requestFromCache.countP (fun q => q.type.wantsData) = 0 := by omega
  have hd : s.dir.backlog.countP (RequestMsg.wantsDataFor c) = 0 := by omega
  rw [countP_eq_zero] at hq hd
  refine ⟨fun ⟨q, hmem, hw⟩ => hq q hmem hw, fun m hm hreq => hd m hm ?_⟩
  simp [RequestMsg.wantsDataFor, hreq, (Dir.mem_backlog.mp hm).2]

/-- A core that is not served has no data on its way. -/
theorem Line.Accounted.unserved (h : s.Accounted late) (hc : ¬ s.Served c) :
    (s.cores c).responseToCache = [] ∧ c ∉ s.dir.fetching := by
  have hle := (s.cores c).state.tally_data_le
  constructor
  · by_contra hne
    have := length_pos_iff.mpr hne
    exact hc (h.served (by omega))
  · intro hmem
    have := count_pos_iff.mpr hmem
    exact hc (h.served (by omega))

/-- Only one data request of a core is under way. -/
theorem Line.Accounted.not_asks (h : s.Accounted late) {m : RequestMsg n}
    (hm : m ∈ s.dir.backlog) : ¬ (s.cores m.requestor).Asks := by
  rintro ⟨q, hq, hqw⟩
  have hp := h.promised_eq m.requestor
  have hle := (s.cores m.requestor).state.tally_data_le
  have h1 := (countP_pos_iff (p := fun q : QueuedRequest => q.type.wantsData)).mpr
    ⟨q, hq, hqw⟩
  have h2 := (countP_pos_iff (p := RequestMsg.wantsDataFor m.requestor)).mpr
    ⟨m, hm, by simp [RequestMsg.wantsDataFor, (Dir.mem_backlog.mp hm).2]⟩
  omega

end Accounts

namespace Line.Coherent

variable {s t : Line n β} {c : Fin n}

/-- An L1 that waits for no data is served. -/
theorem served (h : s.Coherent) (hc : (s.cores c).state.tally.data = 0) : s.Served c :=
  h.accounted.served (by omega)

theorem live (h : s.Coherent) (c : Fin n) : (s.cores c).state.live = true :=
  (h.accounted.core c).ok.live

end Line.Coherent

/-! ## Steps of one L1 -/

/-- What the invariant asks of a transition of L1 `c`; `calm` says that the backlog holds nothing
behind its last request. -/
structure L1.Tracks (c : Fin n) (calm : Prop) (l l' : L1 n β) : Prop where
  orderly : l'.Orderly c
  asks : l.Asks → l'.Asks
  owns : ¬ l'.Asks → (l'.mode c).owns = true → (l.mode c).owns = true
  shares : ¬ l'.Asks → (l'.mode c).shares = true → (l.mode c).shares = true
  keeps : (l.mode c).owns = true → ¬ l.Asks → (l'.mode c).owns = true ∧ ¬ l'.Asks
  heeds : ¬ l'.Asks → calm ∨ ∀ t : CoherenceRequestType, t.wantsData = true →
    l'.state.heeds t → l.state.heeds t
  unseen : ∀ m ∈ l.unseen, m.requestor ≠ c → l'.state.heeds m.type → m ∈ l'.unseen
  awaits : (∀ t, (l.mode c).awaits t = true → (l'.mode c).awaits t = true) ∨
    l.responseToCache ≠ []
  lost : l'.Lost c ↔ l.Lost c
  own : ∀ m ∈ l'.requestToCache, m.requestor = c → m ∈ l.requestToCache ∧
    (m.type = .UPG → l'.state.shares = true → l.state.shares = true)
  buffered : l'.requestToCache ≠ [] → l.requestToCache ≠ [] ∨ l.state.holds
  deliveredWB : ∀ m ∈ l'.requestToCacheWB, m ∈ l.requestToCacheWB
  releases : ∀ m ∈ l.requestToCacheWB, m.requestor = c → m ∈ l'.requestToCacheWB

/-- A PUTM is outstanding in `MI_A` and `MS_A` only. -/
theorem Line.Coherent.state_of_releases {s : Line n β} (h : s.Coherent) {c : Fin n}
    (hr : s.Releases c) : (s.cores c).state = .MI_A ∨ (s.cores c).state = .MS_A := by
  obtain ⟨m, hm, hc⟩ := hr
  have hputm := (h.accounted.core c).counts.putm
  have hpos := (countP_pos_iff (p := fun m : RequestMsg n => decide (m.requestor = c))).mpr
    ⟨m, hm, by simp [hc]⟩
  unfold L1.undeliveredPutm at hputm
  have htab : ∀ s : CacheState, s.tally.putm ≠ 0 → s = .MI_A ∨ s = .MS_A := by decide
  exact htab _ (by omega)

/-- Steps that change L1s only. -/
theorem Line.Coherent.tracks {s t : Line n β} (h : s.Coherent) (hacc : t.Accounted False)
    (hdir : t.dir = s.dir)
    (hx : ∀ d, (s.cores d).Tracks d (behind d s.dir.backlog = []) (t.cores d)) :
    t.Coherent := by
  have hserved : ∀ d, t.Served d → s.Served d := by
    intro d hd
    refine ⟨fun ha => hd.1 ((hx d).asks ha), ?_⟩
    rw [← hdir]
    exact hd.2
  have hreleases : ∀ d, s.Releases d ↔ t.Releases d := by
    intro d
    constructor
    · rintro ⟨m, hm, hc⟩
      exact ⟨m, (hx d).releases m hm hc, hc⟩
    · rintro ⟨m, hm, hc⟩
      exact ⟨m, (hx d).deliveredWB m hm, hc⟩
  exact {
    accounted := hacc
    core := fun c => (hx c).orderly
    shape := hdir ▸ h.shape
    owning := by
      intro c ho hc
      rw [hdir]
      exact h.owning c ((hx c).owns hc.1 ho) (hserved c hc)
    sharing := by
      intro c hs hc
      rw [hdir]
      exact h.sharing c ((hx c).shares hc.1 hs) (hserved c hc)
    owner := by
      intro c ho hw
      rw [hdir] at ho hw
      rcases h.owner c ho hw with ⟨hown, hc⟩ | hre
      · obtain ⟨hown', ha⟩ := (hx c).keeps hown hc.1
        exact .inl ⟨hown', ha, hdir ▸ hc.2⟩
      · refine .inr ?_
        unfold Line.Reclaims at hre ⊢
        rw [hdir, (hx c).lost]
        exact hre
    heeded := by
      intro c hc m hm hh
      rw [hdir] at hm
      obtain ⟨hmem, hother⟩ := mem_of_mem_behind hm
      refine (hx c).unseen m ?_ hother hh
      refine h.heeded c (fun ha => hc ((hx c).asks ha)) m hm ?_
      rcases (hx c).heeds hc with hcalm | hheeds
      · rw [hcalm] at hm
        cases hm
      · exact hheeds m.type (Dir.mem_backlog.mp hmem).2 hh
    awaited := by
      intro m hm
      rw [hdir] at hm
      rcases (hx m.requestor).awaits with hkeep | hresp
      · exact hkeep _ (h.awaited m hm)
      · exact absurd (h.accounted.unserved fun hc => hc.2 m hm rfl).1 hresp
    fetched := by
      intro c ho hc
      rw [hdir] at ho hc
      rcases (hx c).awaits with hkeep | hresp
      · exact hkeep _ (h.fetched c ho hc)
      · have hp := h.accounted.promised_eq c
        have hle := (s.cores c).state.tally_data_le
        have h1 := length_pos_iff.mpr hresp
        have h2 := count_pos_iff.mpr hc
        omega
    lost := fun c d hc hd => h.lost c d ((hx c).lost.mp hc) ((hx d).lost.mp hd)
    last := by
      intro c m hm hc hw
      rw [hdir]
      exact h.last c m ((hx c).own m hm hc).1 hc hw
    granted := by
      intro c m hm hc ht hsh
      obtain ⟨hm', hsh'⟩ := (hx c).own m hm hc
      rw [hdir]
      exact h.granted c m hm' hc ht (hsh' ht hsh)
    stalled := hdir ▸ h.stalled
    upg := hdir ▸ h.upg
    putm := by
      intro c hr
      have hr := (hreleases c).mpr hr
      obtain ⟨hnil, hdirnil⟩ := h.putm c hr
      refine ⟨?_, hdir ▸ hdirnil⟩
      by_contra hne
      rcases (hx c).buffered hne with hb | hh
      · exact hb hnil
      · rcases h.state_of_releases hr with hs | hs <;> rw [hs] at hh <;> revert hh <;> decide
    putmWaits := by
      intro m hm
      rw [hdir] at hm
      obtain ⟨h1, h2, h3, h4⟩ := h.putmWaits m hm
      refine ⟨hdir ▸ h1, hdir ▸ h2, hdir ▸ h3, ?_⟩
      rw [hdir, ← hreleases]
      exact h4
    released := by
      rw [hdir]
      intro hs hw
      obtain ⟨c, ho, hr⟩ := h.released hs hw
      exact ⟨c, ho, (hreleases c).mp hr⟩ }
