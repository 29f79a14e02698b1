/-
# What the MSI directory does with each event

The rows of `msiDir` written out as outcomes, as `MsiL1.lean` does for the L1:
what happens to a request taken from the request port, to a PUTM, to write-back
data and to an answer of the memory.
-/
import Gem5.Directory
import Gem5.MsiTables

variable {n : ℕ} {β : Type} {d : Dir n β} {x : DirFiring n β}

/-- The outcomes of serving the request `m`, the `i`th of `requestToDir`. -/
inductive Msi.DirRequest (d : Dir n β) (i : ℕ) (m : RequestMsg n) (x : DirFiring n β) : Prop
  /-- The request waits: memory or write-back data are on their way. -/
  | stall (hs : d.state = .IS ∨ d.state = .IM ∨ d.state = .M_D ∨ d.state = .MI ∨ d.state = .IS_A)
      (ht : d.state = .M_D → m.type ≠ .UPG) (hm : m.type ≠ .PUTM)
      (ho : m.type = .GETM → d.owner ≠ some m.requestor)
      (hx : x = { dir := { d with
        requestToDir := d.requestToDir.eraseIdx i, stalled := d.stalled ++ [m], waiting := true } })
  /-- A read in `I` fetches the block. -/
  | fetchShared (hs : d.state = .I) (ht : m.type = .GETS ∨ m.type = .GETI)
      (hx : x = { dir := { d with
        state := .IS, tbe := true, requestToDir := d.requestToDir.eraseIdx i
        requestToMemory := d.requestToMemory ++ [.read m.requestor] } })
  /-- A write in `I` takes the ownership and fetches the block. -/
  | fetchOwned (hs : d.state = .I) (ht : m.type = .GETM) (ho : d.owner ≠ some m.requestor)
      (hx : x = { dir := { d with
        state := .IM, owner := some m.requestor, tbe := true
        requestToDir := d.requestToDir.eraseIdx i
        requestToMemory := d.requestToMemory ++ [.read m.requestor] } })
  /-- The owner, granted by its UPG, asks for the block after all. -/
  | fetchOwner (hs : d.state = .M ∨ d.state = .M_D) (ht : m.type = .GETM)
      (ho : d.owner = some m.requestor)
      (hx : x = { dir := { d with
        state := .IM, tbe := d.tbe || decide (d.state = .M)
        requestToDir := d.requestToDir.eraseIdx i
        requestToMemory := d.requestToMemory ++ [.read m.requestor] } })
  /-- The owner has to write back first; the request stays where it is. -/
  | await (hs : d.state = .M) (hm : m.type ≠ .UPG) (hp : m.type ≠ .PUTM)
      (ho : m.type = .GETM → d.owner ≠ some m.requestor)
      (hx : x = { dir := { d with state := .M_D, tbe := true } })
  /-- An UPG that lost its race is dropped: its issuer sends a GETM. -/
  | drop (hs : d.state = .M ∨ d.state = .M_D) (ht : m.type = .UPG)
      (hx : x = { dir := { d with requestToDir := d.requestToDir.eraseIdx i } })
  /-- An UPG in `I` takes the ownership. -/
  | grant (hs : d.state = .I) (ht : m.type = .UPG)
      (hx : x = { dir := { d with
        state := .M, owner := some m.requestor, requestToDir := d.requestToDir.eraseIdx i } })

variable {i : ℕ} {m : RequestMsg n}

theorem msi_dirRequest {ev : DirEvent} (hm : m.type ≠ .PUTM)
    (hev : d.requestEvent m = some ev) (hx : d.trigger msi (.request i m) ev = some x) :
    Msi.DirRequest d i m x := by
  obtain ⟨t, hp, rfl⟩ := Dir.trigger_eq_some hx
  clear hx
  cases ht : m.type
  case PUTM => exact absurd ht hm
  case GETS | GETI =>
    simp only [Dir.requestEvent, ht, Option.some.injEq] at hev
    subst hev
    cases hs : d.state <;> rw [hs] at hp <;> cases hp
    case I.refl => exact .fetchShared hs (by simp [ht]) (by simp)
    case M.refl => exact .await hs (by simp [ht]) hm (by simp [ht]) (by simp)
    all_goals exact .stall (by simp [hs]) (by simp [ht]) hm (by simp [ht]) (by simp [hs])
  case GETM =>
    simp only [Dir.requestEvent, ht, Option.some.injEq] at hev
    split at hev
    · rename_i ho
      subst hev
      cases hs : d.state <;> rw [hs] at hp <;> cases hp
      all_goals exact .fetchOwner (by simp [hs]) ht ho (by simp [hs])
    · rename_i ho
      subst hev
      cases hs : d.state <;> rw [hs] at hp <;> cases hp
      case I.refl => exact .fetchOwned hs ht ho (by simp)
      case M.refl => exact .await hs (by simp [ht]) hm (fun _ => ho) (by simp)
      all_goals exact .stall (by simp [hs]) (by simp [ht]) hm (fun _ => ho) (by simp [hs])
  case UPG =>
    simp only [Dir.requestEvent, ht, Option.some.injEq] at hev
    subst hev
    cases hs : d.state <;> rw [hs] at hp <;> cases hp
    case I.refl => exact .grant hs ht (by simp)
    case M.refl | M_D.refl => exact .drop (by simp [hs]) ht (by simp [hs])
    all_goals exact .stall (by simp [hs]) (by simp [hs]) hm (by simp [ht]) (by simp [hs])

/-- The directory answers requests only once it has the data. -/
theorem Msi.DirRequest.responses_eq_nil (hx : Msi.DirRequest d i m x) :
    x.responses = [] := by
  cases hx <;> (rename_i hx; subst hx; rfl)

/-- Only a PUTM can be dequeued without a transition. -/
theorem Dir.requestEvent_ne_none (hm : m.type ≠ .PUTM) :
    d.requestEvent m ≠ none := by
  cases ht : m.type <;> simp [Dir.requestEvent, ht] at hm ⊢

/-- The outcomes of a PUTM of the owner. -/
inductive Msi.DirPutm (d : Dir n β) (i : ℕ) (x : DirFiring n β) : Prop
  | pop (s' : DirState) (hs : d.state = .M ∧ s' = .MI ∨ d.state = .M_D ∧ s' = .M_D)
      (hx : x = { dir := { d with
        state := s', requestToDirWB := d.requestToDirWB.eraseIdx i } })
  | stall (hs : d.state = .MI ∨ d.state = .IS_A)
      (hx : x = { dir := { d with
        requestToDir := d.requestToDir.tail
        stalled := d.stalled ++ d.requestToDir.head?.toList, waiting := true } })

theorem msi_dirPutm (hx : d.trigger msi (.requestWB i m) .PUTM = some x) : Msi.DirPutm d i x := by
  obtain ⟨t, hp, rfl⟩ := Dir.trigger_eq_some hx
  clear hx
  cases hs : d.state <;> rw [hs] at hp <;> cases hp
  case M.refl => exact .pop .MI (by simp [hs]) (by simp)
  case M_D.refl => exact .pop .M_D (by simp [hs]) (by simp)
  all_goals exact .stall (by simp [hs]) (by simp [hs])

theorem Msi.DirPutm.responses_eq_nil (hx : Msi.DirPutm d i x) : x.responses = [] := by
  cases hx <;> (rename_i hx; subst hx; rfl)

/-- Write-back data: the block goes to memory and the stalled requests are woken. -/
def Dir.written (d : Dir n β) (i : ℕ) (b : β) : DirFiring n β where
  dir := { d with
    state := .I, owner := none, tbe := d.tbe && decide (d.state ≠ .M_D)
    requestToMemory := d.requestToMemory ++ [.write b]
    responseToDir := d.responseToDir.eraseIdx i
    requestToDir := d.requestToDir ++ d.stalled, stalled := [], waiting := false }

/-- Fetched data: the requestor is answered and the stalled requests are woken. -/
def Dir.answered (d : Dir n β) (q : Fin n) (b : β) (s' : DirState) : DirFiring n β where
  dir := { d with
    state := s', tbe := false, responseFromMemory := d.responseFromMemory.tail
    requestToDir := d.requestToDir ++ d.stalled, stalled := [], waiting := false }
  responses := [(q, ⟨false, b⟩)]

theorem msi_dirResponse {q : Fin n} {b : β} (hd : d.stalled = [] ∨ d.waiting = true)
    (hx : d.trigger msi (.response i q b) .Data = some x) :
    (d.state = .M_D ∨ d.state = .MI ∨ d.state = .M) ∧ x = d.written i b := by
  obtain ⟨t, hp, rfl⟩ := Dir.trigger_eq_some hx
  clear hx
  cases hs : d.state <;> rw [hs] at hp <;> cases hp
  all_goals exact ⟨by simp, by simp [Dir.wakeUpBuffers_eq, Dir.written, hd, hs]⟩

theorem msi_dirMemoryData {q : Fin n} {b : β} (hd : d.stalled = [] ∨ d.waiting = true)
    (hx : d.trigger msi (.memory (.data q b)) .Memory_Data = some x) :
    ∃ s', (d.state = .IS ∧ s' = .I ∨ d.state = .IM ∧ s' = .M) ∧ x = d.answered q b s' := by
  obtain ⟨t, hp, rfl⟩ := Dir.trigger_eq_some hx
  clear hx
  cases hs : d.state <;> rw [hs] at hp <;> cases hp
  case IS.refl => exact ⟨.I, by simp, by simp [Dir.wakeUpBuffers_eq, Dir.answered, hd]⟩
  case IM.refl => exact ⟨.M, by simp, by simp [Dir.wakeUpBuffers_eq, Dir.answered, hd]⟩

/-- The acknowledgement of a write-back is only dequeued. -/
theorem msi_dirMemoryAck (hx : d.trigger msi (.memory .ack) .Memory_Ack = some x) :
    x = { dir := { d with responseFromMemory := d.responseFromMemory.tail } } := by
  obtain ⟨t, hp, rfl⟩ := Dir.trigger_eq_some hx
  clear hx
  cases hs : d.state <;> rw [hs] at hp <;> cases hp
  all_goals simp [hs]
