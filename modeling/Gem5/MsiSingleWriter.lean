/-
# Single writer, multiple readers

The coherence invariant holds in every state that an MSI line reaches under the
TDM discipline, for any number of cores; the single-writer property follows from
it for L1s that have seen every request ordered so far, so in particular between
bus slots.
-/
import Gem5.MsiCoherenceOrder

variable {n : ℕ} {β : Type}

/-! ## Runs -/

section Runs

variable {s t : Line n β} {c : Fin n} {x : Firing n β}

/-- An L1 that keeps its state and its messages. -/
theorem Line.Coherent.tracks_same (h : s.Coherent) {d : Fin n} {l : L1 n β}
    (hl : (s.cores d).Same l) : (s.cores d).Tracks d (behind c s.dir.backlog = []) l := by
  refine .of_eq (h.core d) hl.state hl.requestFromCache hl.requestToCache hl.stalled
    (.inl hl.waiting) ?_ fun _ hm _ => ?_
  · rw [hl.requestToCacheWB]
    exact fun _ => id
  · rwa [hl.requestToCacheWB]

/-- A transition of L1 `c` that sends no data. -/
theorem Line.Coherent.commit (h : s.Coherent) (hacc : (s.commit c x).Accounted False)
    (hwb : x.wb = [])
    (hx : (s.cores c).Tracks c (behind c s.dir.backlog = []) x.line) :
    (s.commit c x).Coherent := by
  refine h.tracks hacc (by simp [Line.commit, hwb]) fun d => ?_
  rcases eq_or_ne d c with rfl | hd
  · simpa [Line.commit] using hx
  · simp only [Line.commit, if_neg hd]
    exact h.tracks_same ⟨rfl, rfl, rfl, rfl, rfl, rfl⟩

/-- The own request has been ordered after everything in the backlog. -/
theorem Line.Coherent.calm (h : s.Coherent) {m : RequestMsg n}
    (hm : m ∈ (s.cores c).requestToCache) (hc : m.requestor = c)
    (hsh : m.type = .UPG → (s.cores c).state.shares = true) : behind c s.dir.backlog = [] := by
  by_cases hw : m.type.wantsData = true
  · exact h.last c m hm hc hw
  · have ht : m.type = .UPG := by
      have := (h.accounted.core c).typed.delivered m hm
      revert hw this
      generalize m.type = t
      cases t <;> decide
    rw [h.granted c m hm hc ht (hsh ht)]
    rfl

theorem Line.Coherent.tracks_own (h : s.Coherent) {m : RequestMsg n}
    (hm : (s.cores c).requestToCache[0]? = some m) (hc : m.requestor = c)
    (hx : Msi.Own c (s.cores c) 0 m x) :
    (s.cores c).Tracks c (behind c s.dir.backlog = []) x.line := by
  rcases hx.met_or_lost with hmet | ⟨ht, hlost, hh, hd, hs, hq, hdel, hst, hWB, -⟩
  · exact hmet.tracks (h.core c) (h.accounted.core c) hm hc
      (h.calm (List.mem_of_getElem? hm) hc fun ht => (hmet.waits.2 ht).1)
  · exact .of_lost _ (h.core c) ⟨hlost, hh, (h.served hd).1⟩ hs rfl hm hc ht hq hdel hst hWB

/-- An L1 with an answer in its buffer has no request queued. -/
theorem Line.Coherent.not_asks_of_response (h : s.Coherent) {m : ResponseMsg β} {i : ℕ}
    (hm : (s.cores c).responseToCache[i]? = some m) : ¬ (s.cores c).Asks := fun ha =>
  List.ne_nil_of_mem (List.mem_of_getElem? hm) (h.accounted.unserved fun hs => hs.1 ha).1

/-- Stalled requests that are handed out again. -/
theorem Line.Coherent.tracks_wakeUp (h : s.Coherent) (c : Fin n) :
    (s.cores c).Tracks c (behind c s.dir.backlog = []) { s.cores c with
      requestToCache := (s.cores c).requestToCache ++ (s.cores c).stalled
      requestToCacheWB := (s.cores c).requestToCacheWB ++ (s.cores c).stalledWB
      stalled := []
      stalledWB := []
      waiting := none } := by
  have hWB : (s.cores c).requestToCacheWB ++ (s.cores c).stalledWB = (s.cores c).requestToCacheWB := by
    rw [(h.accounted.core c).ok.stalledWB, List.append_nil]
  by_cases hs : (s.cores c).state.holds
  · exact .of_wake (h.core c) (h.accounted.core c) hs (.inl rfl) rfl rfl rfl hWB
  · have hst := (h.core c).stalled_eq_nil hs
    exact .of_eq (h.core c) rfl rfl (by simp [hst]) hst.symm (.inr hst) (fun m hm => hWB ▸ hm)
      fun m hm _ => hWB.symm ▸ hm

theorem Line.Coherent.atSlot (h : s.Coherent) {i : ℕ} {q : QueuedRequest} (hseen : s.Seen)
    (hidle : s.MemoryIdle) (hside : s.SideFirst (.order c i))
    (hq : (s.cores c).requestFromCache[i]? = some q) (hacc : (s.ordered c i q).Accounted False) :
    s.AtSlot c i q := by
  refine ⟨h, hq, hseen, hidle, fun hp => ?_, hacc⟩
  obtain ⟨q', hq', hs⟩ := hside hp
  rw [hq] at hq'
  obtain rfl : q = q' := Option.some.inj hq'
  exact hs

variable [Inhabited β] {k : Label n β}

/-- **Every step under the discipline keeps the invariant.** -/
theorem Line.Coherent.step (h : s.Coherent) (hok : s.Slotted k) (hx : Msi.Step s k t)
    (hacc : t.Accounted False) : t.Coherent := by
  obtain ⟨⟨⟨hin, hside, hseen⟩, hidle⟩, hspares⟩ := hok
  cases hx with
  | issue c r hr hb =>
    rw [Line.setCore_eq_commit] at hacc ⊢
    exact h.commit hacc rfl (h.tracks_same ⟨rfl, rfl, rfl, rfl, rfl, rfl⟩)
  | processor c r x hr hq hx =>
    refine h.commit hacc ?_ (hx.tracks (h.core c) (h.accounted.core c))
    cases hx <;> (rename_i hx; subst hx; rfl)
  | replacement c x hr hx =>
    refine h.commit hacc ?_ (hx.tracks (h.core c) (h.accounted.core c) hspares)
    cases hx <;> (rename_i hx; subst hx; rfl)
  | order c i q hq =>
    exact (h.atSlot (hseen rfl) (hidle rfl) hside hq hacc).isCoherent
  | orderWB c hq => exact h.orderWB (hseen rfl) (hidle rfl) hq hacc
  | snoop c i m x hm hc hx =>
    obtain rfl : i = 0 := hin
    refine h.commit hacc ?_ (hx.snooped.tracks (h.core c) (h.accounted.core c) hm hc)
    cases hx <;> (rename_i hx; subst hx; rfl)
  | own c i m x hm hc hx =>
    obtain rfl : i = 0 := hin
    refine h.commit hacc ?_ (h.tracks_own hm hc hx)
    cases hx <;> (rename_i hx; subst hx; rfl)
  | snoopWB c i m hm hc =>
    exact h.commit hacc rfl (.of_snoopWB (h.core c) (h.accounted.core c) hm hc rfl rfl rfl rfl rfl rfl)
  | ownWB c i m x hm hc hx => exact h.ownWB hm hc hx hacc
  | response c i m x hm hx =>
    refine h.commit hacc ?_ (hx.tracks hm (h.core c) (h.accounted.core c) (h.not_asks_of_response hm))
    cases hx <;> (rename_i hx; subst hx; rfl)
  | atomic c i a ha =>
    exact h.commit hacc rfl (h.tracks_same ⟨rfl, rfl, rfl, rfl, rfl, rfl⟩)
  | wakeUp c =>
    unfold Line.wakeUp at hacc ⊢
    rw [Line.setCore_eq_commit] at hacc ⊢
    exact h.commit hacc rfl (h.tracks_wakeUp c)
  | dirRequest i m x hm hx =>
    obtain rfl : i = 0 := hin
    exact hx.coherent h hm hacc
  | dirPutm i m x hm ho hx =>
    obtain rfl : i = 0 := hin
    exact hx.coherent h hm ho hacc
  | dirPutmStale i m hm ho =>
    obtain rfl : i = 0 := hin
    exact h.dirPutmStale hm hacc
  | dirResponse i q b hm hs =>
    obtain rfl : i = 0 := hin
    exact h.dirResponse hm rfl hacc
  | memory d hd => exact h.memory hd hacc
  | dirMemoryData q b s' hm hs => exact h.dirMemoryData hm hs hin rfl hacc
  | dirMemoryAck hm => exact h.dirMemoryAck hm rfl hacc

end Runs

/-! ## The single writer -/

/-- The states in which the line may be written, and `MS_A`. -/
def CacheState.writes : CacheState → Bool
  | M | M_L | MI_A | MS_A => true
  | _ => false

/-- The states in which a load or a store hits. -/
def CacheState.hits : CacheState → Bool
  | S | M | M_L | MI_A => true
  | _ => false
