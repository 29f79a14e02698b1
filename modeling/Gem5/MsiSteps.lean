/-
# The steps of an MSI line

`Msi.Step s l t` lists what a step of the line can do, with the outcome of the
controller transition it makes: every invariant of the MSI protocol is a case
analysis of this list.  `Msi.step_cases` shows that it is complete, for lines
whose L1s are `Ok` and whose messages travel on the vnet of their type.
-/
import Gem5.MsiL1
import Gem5.MsiDir

variable {n : ℕ} {β : Type}

/-! ## Messages on their vnets -/

/-- Every message of the L1 is on the vnet of its type, and the stalled ones are others'. -/
structure L1.Typed (c : Fin n) (l : L1 n β) : Prop where
  queued : ∀ q ∈ l.requestFromCache, q.type ≠ .PUTM
  delivered : ∀ m ∈ l.requestToCache, m.type ≠ .PUTM
  stalled : ∀ m ∈ l.stalled, m.requestor ≠ c ∧ m.type ≠ .PUTM
  deliveredWB : ∀ m ∈ l.requestToCacheWB, m.type = .PUTM
  responses : ∀ m ∈ l.responseToCache, m.exclusive = false

/-- Every message of the directory is on the vnet of its type, and stalled requests are
recorded. -/
structure Dir.Typed (d : Dir n β) : Prop where
  requests : ∀ m ∈ d.requestToDir, m.type ≠ .PUTM
  stalled : ∀ m ∈ d.stalled, m.type ≠ .PUTM
  requestsWB : ∀ m ∈ d.requestToDirWB, m.type = .PUTM
  waiting : d.stalled = [] ∨ d.waiting = true

/-! ## The steps -/

/-- The steps of an MSI line. -/
inductive Msi.Step [Inhabited β] (s : Line n β) : Label n β → Line n β → Prop
  | issue (c : Fin n) (r : SequencerRequest β) (hr : (s.cores c).request = none)
      (hb : (s.cores c).blocked = (r.type == .Locked_RMW_Write)) :
      Msi.Step s (.issue c r)
        (s.setCore c { s.cores c with request := some r, inMandatoryQueue := true })
  | processor (c : Fin n) (r : SequencerRequest β) (x : Firing n β)
      (hr : (s.cores c).request = some r) (hq : (s.cores c).inMandatoryQueue = true)
      (hx : Msi.Processor c (s.cores c) r x) : Msi.Step s (.mandatory c) (s.commit c x)
  | replacement (c : Fin n) (x : Firing n β) (hr : (s.cores c).request = none)
      (hx : Msi.Replacement (s.cores c) x) : Msi.Step s (.replacement c) (s.commit c x)
  | order (c : Fin n) (i : ℕ) (q : QueuedRequest)
      (hq : (s.cores c).requestFromCache[i]? = some q) :
      Msi.Step s (.order c i) (s.ordered c i q)
  | orderWB (c : Fin n) (hq : (s.cores c).requestFromCacheWB ≠ 0) :
      Msi.Step s (.orderWB c) (s.orderedWB c)
  | snoop (c : Fin n) (i : ℕ) (m : RequestMsg n) (x : Firing n β)
      (hm : (s.cores c).requestToCache[i]? = some m) (hc : m.requestor ≠ c)
      (hx : Msi.Snoop (s.cores c) i m x) : Msi.Step s (.request c i) (s.commit c x)
  | own (c : Fin n) (i : ℕ) (m : RequestMsg n) (x : Firing n β)
      (hm : (s.cores c).requestToCache[i]? = some m) (hc : m.requestor = c)
      (hx : Msi.Own c (s.cores c) i m x) : Msi.Step s (.request c i) (s.commit c x)
  | snoopWB (c : Fin n) (i : ℕ) (m : RequestMsg n)
      (hm : (s.cores c).requestToCacheWB[i]? = some m) (hc : m.requestor ≠ c) :
      Msi.Step s (.requestWB c i) (s.commit c { line := { s.cores c with
        state := msiSnooped (s.cores c).state .PUTM
        requestToCacheWB := (s.cores c).requestToCacheWB.eraseIdx i
        locked := (s.cores c).locked && decide ((s.cores c).state ≠ .I) } })
  | ownWB (c : Fin n) (i : ℕ) (m : RequestMsg n) (x : Firing n β)
      (hm : (s.cores c).requestToCacheWB[i]? = some m) (hc : m.requestor = c)
      (hx : Msi.OwnWB (s.cores c) i x) : Msi.Step s (.requestWB c i) (s.commit c x)
  | response (c : Fin n) (i : ℕ) (m : ResponseMsg β) (x : Firing n β)
      (hm : (s.cores c).responseToCache[i]? = some m)
      (hx : Msi.Response c (s.cores c) i m x) : Msi.Step s (.response c i) (s.commit c x)
  | atomic (c : Fin n) (i : ℕ) (t : AtomicRequestType)
      (ht : (s.cores c).atomicRequestToCache[i]? = some t) :
      Msi.Step s (.atomic c i) (s.commit c { line := { s.cores c with
        isBlocked := (s.cores c).isBlocked + (if t = .GETMATOMICST then 1 else -1)
        atomicRequestToCache := (s.cores c).atomicRequestToCache.eraseIdx i
        locked := (s.cores c).locked && decide ((s.cores c).state ≠ .I) } })
  | wakeUp (c : Fin n) : Msi.Step s (.wakeUp c) (s.wakeUp c)
  | dirRequest (i : ℕ) (m : RequestMsg n) (x : DirFiring n β)
      (hm : s.dir.requestToDir[i]? = some m) (hx : Msi.DirRequest s.dir i m x) :
      Msi.Step s (.dirRequest i) (s.commitDir x)
  | dirPutm (i : ℕ) (m : RequestMsg n) (x : DirFiring n β)
      (hm : s.dir.requestToDirWB[i]? = some m) (ho : s.dir.owner = some m.requestor)
      (hx : Msi.DirPutm s.dir i x) : Msi.Step s (.dirRequestWB i) (s.commitDir x)
  | dirPutmStale (i : ℕ) (m : RequestMsg n) (hm : s.dir.requestToDirWB[i]? = some m)
      (ho : s.dir.owner ≠ some m.requestor) :
      Msi.Step s (.dirRequestWB i)
        { s with dir := { s.dir with requestToDirWB := s.dir.requestToDirWB.eraseIdx i } }
  | dirResponse (i : ℕ) (q : Fin n) (b : β) (hm : s.dir.responseToDir[i]? = some (q, b))
      (hs : s.dir.state = .M_D ∨ s.dir.state = .MI ∨ s.dir.state = .M) :
      Msi.Step s (.dirResponse i) (s.commitDir { dir := { s.dir with
        state := .I, owner := none, tbe := s.dir.tbe && decide (s.dir.state ≠ .M_D)
        requestToMemory := s.dir.requestToMemory ++ [.write b]
        responseToDir := s.dir.responseToDir.eraseIdx i
        requestToDir := s.dir.requestToDir ++ s.dir.stalled, stalled := [], waiting := false } })
  | memory (d : Dir n β) (hd : s.dir.accessMemory = some d) :
      Msi.Step s .memory { s with dir := d }
  | dirMemoryData (q : Fin n) (b : β) (s' : DirState)
      (hm : s.dir.responseFromMemory.head? = some (.data q b))
      (hs : s.dir.state = .IS ∧ s' = .I ∨ s.dir.state = .IM ∧ s' = .M) :
      Msi.Step s .dirMemory (s.commitDir {
        dir := { s.dir with
          state := s', tbe := false, responseFromMemory := s.dir.responseFromMemory.tail
          requestToDir := s.dir.requestToDir ++ s.dir.stalled, stalled := [], waiting := false }
        responses := [(q, ⟨false, b⟩)] })
  | dirMemoryAck (hm : s.dir.responseFromMemory.head? = some .ack) :
      Msi.Step s .dirMemory (s.commitDir { dir := { s.dir with
        responseFromMemory := s.dir.responseFromMemory.tail } })

namespace Msi

variable [Inhabited β] {s t : Line n β}

omit [Inhabited β] in
/-- An atomic line is never in a data waiting state, so the in_port holds nothing back. -/
theorem holdsBack_eq_false {l : L1 n β} (h : l.Ok) {c : Fin n} {m : RequestMsg n} :
    l.holdsBack c m = false := by
  cases ha : l.isAtomic with
  | false => simp [L1.holdsBack, L1.isAtomicLine, ha]
  | true => rcases h.atomic ha with hs | hs <;> simp [L1.holdsBack, hs, CacheState.isDataWaiting]

omit [Inhabited β] in
/-- No MSI L1 upgrades silently. -/
theorem grantSilently_eq {c : Fin n} (h : (s.cores c).Ok) (e : CacheEvent) :
    s.grantSilently c e = s := by
  have hE : (s.cores c).state.upgradesSilently e = false := by
    have hl := h.live
    revert hl
    generalize (s.cores c).state = st
    cases st <;> simp [CacheState.live, CacheState.upgradesSilently]
  simp [Line.grantSilently, hE]

/-- **Every step of an MSI line is in the list.** -/
theorem step_cases (hok : ∀ c, (s.cores c).Ok) (ht : ∀ c, L1.Typed c (s.cores c))
    (hd : s.dir.Typed) {l : Label n β} (h : s.step msi l = .ok t) : Msi.Step s l t := by
  cases l with
  | issue c r =>
    simp only [Line.step, Line.issue] at h
    split at h
    · rename_i hc
      cases h
      exact .issue c r (by simpa using hc.1) hc.2
    · cases h
  | mandatory c =>
    simp only [Line.step, Line.serveMandatory, grantSilently_eq (hok c)] at h
    split at h
    · rename_i r hr
      split at h
      · rename_i hq
        obtain ⟨x, hx, rfl⟩ := Line.serve_eq_ok h
        exact .processor c r x hr hq (msi_processor (hok c) hr hq hx)
      · cases h
    · cases h
  | replacement c =>
    simp only [Line.step, Line.serveReplacement] at h
    split at h
    · rename_i hc
      obtain ⟨x, hx, rfl⟩ := Line.serve_eq_ok h
      have hr : (s.cores c).request = none := by simpa using hc.2
      exact .replacement c x hr (msi_replacement (hok c) hr hc.1 hx)
    · cases h
  | order c i =>
    simp only [Line.step, Line.order] at h
    split at h
    · rename_i q hq
      cases h
      exact .order c i q hq
    · cases h
  | orderWB c =>
    simp only [Line.step, Line.orderWB] at h
    split at h
    · cases h
    · rename_i hq
      cases h
      exact .orderWB c hq
  | request c i =>
    simp only [Line.step, Line.serveRequest] at h
    split at h
    · rename_i m hm
      have hty := (ht c).delivered m (List.mem_of_getElem? hm)
      simp only [holdsBack_eq_false (hok c), Bool.false_eq_true, if_false] at h
      obtain ⟨x, hx, rfl⟩ := Line.serve_eq_ok h
      by_cases hc : m.requestor = c
      · simp only [RequestMsg.event, hc, if_true] at hx
        exact .own c i m x hm hc (msi_own (hok c) hty hx)
      · simp only [RequestMsg.event, hc, if_false] at hx
        exact .snoop c i m x hm hc (msi_snoop (hok c) hty hx)
    · cases h
  | requestWB c i =>
    simp only [Line.step, Line.serveRequestWB] at h
    split at h
    · rename_i m hm
      have hty := (ht c).deliveredWB m (List.mem_of_getElem? hm)
      simp only [holdsBack_eq_false (hok c), Bool.false_eq_true, if_false] at h
      obtain ⟨x, hx, rfl⟩ := Line.serve_eq_ok h
      by_cases hc : m.requestor = c
      · simp only [RequestMsg.event, hc, if_true] at hx
        exact .ownWB c i m x hm hc (msi_ownWB (hok c) hty hx)
      · simp only [RequestMsg.event, hc, if_false] at hx
        rw [msi_snoopWB (hok c) hty hx]
        exact .snoopWB c i m hm hc
    · cases h
  | response c i =>
    simp only [Line.step, Line.serveResponse] at h
    split at h
    · rename_i m hm
      obtain ⟨x, hx, rfl⟩ := Line.serve_eq_ok h
      have hex := (ht c).responses m (List.mem_of_getElem? hm)
      simp only [ResponseMsg.event, hex, Bool.false_eq_true, if_false] at hx
      exact .response c i m x hm (msi_response (hok c) hx)
    · cases h
  | atomic c i =>
    simp only [Line.step, Line.serveAtomic] at h
    split at h
    · rename_i a ha
      obtain ⟨x, hx, rfl⟩ := Line.serve_eq_ok h
      rw [msi_atomic (hok c) hx]
      exact .atomic c i a ha
    · cases h
  | wakeUp c =>
    cases h
    exact .wakeUp c
  | dirRequest i =>
    simp only [Line.step, Line.serveDirRequest] at h
    split at h
    · rename_i m hm
      have hty := hd.requests m (List.mem_of_getElem? hm)
      split at h
      · rename_i ev hev
        obtain ⟨x, hx, rfl⟩ := Line.serveDir_eq_ok h
        exact .dirRequest i m x hm (msi_dirRequest hty hev hx)
      · -- only a PUTM has no event
        rename_i hev
        exact absurd hev (Dir.requestEvent_ne_none hty)
    · cases h
  | dirRequestWB i =>
    simp only [Line.step, Line.serveDirRequestWB] at h
    split at h
    · rename_i m hm
      have hty := hd.requestsWB m (List.mem_of_getElem? hm)
      simp only [Dir.requestWBEvent, hty] at h
      by_cases ho : s.dir.owner = some m.requestor
      · simp only [ho, if_true] at h
        obtain ⟨x, hx, rfl⟩ := Line.serveDir_eq_ok h
        exact .dirPutm i m x hm ho (msi_dirPutm hx)
      · simp only [ho, if_false] at h
        cases h
        exact .dirPutmStale i m hm ho
    · cases h
  | dirResponse i =>
    simp only [Line.step, Line.serveDirResponse] at h
    split at h
    · rename_i q b hm
      obtain ⟨x, hx, rfl⟩ := Line.serveDir_eq_ok h
      obtain ⟨hs, rfl⟩ := msi_dirResponse hd.waiting hx
      exact .dirResponse i q b hm hs
    · cases h
  | memory =>
    simp only [Line.step, Line.accessMemory] at h
    split at h
    · rename_i d hd
      cases h
      exact .memory d hd
    · cases h
  | dirMemory =>
    simp only [Line.step, Line.serveDirMemory] at h
    split at h
    · rename_i m hm
      obtain ⟨x, hx, rfl⟩ := Line.serveDir_eq_ok h
      cases m with
      | data q b =>
        obtain ⟨s', hs, rfl⟩ := msi_dirMemoryData hd.waiting hx
        exact .dirMemoryData q b s' hm hs
      | ack =>
        rw [msi_dirMemoryAck hx]
        exact .dirMemoryAck hm
    · cases h

end Msi
