/-
# What the memory checker accepts

The parts of `MemChecker` without a history: the maps keyed by the serial, the search
for the last completed entry, the clusters of writes, and the scan of
`inExpectedData`.

`Reaches P Q` is the search that the scan makes: from the latest cluster towards the
older ones, through clusters all of whose writes satisfy `Q`, to a write that
satisfies `P`.  A value that is `Accepted` is one that the scan, or the comparison
with the last observation after it, cannot reject (`inExpectedData_of_accepted`).

* `lastCompletedTransaction_spec` — the entry that is found, and what is around it.
* `WriteCluster.Ok`               — the counters of a cluster agree with its writes.
* `Accepted`                      — why a value is not rejected.
-/
import Gem5.MemChecker
import Mathlib

open List

namespace MemChecker

/-! ## Maps keyed by the serial -/

section Serials

variable {l l₁ l₂ : List Transaction} {t w : Transaction}

/-- The serials are handed out in increasing order. -/
theorem insertBySerial_eq_append (h : ∀ u ∈ l, u.serial < t.serial) :
    insertBySerial t l = l ++ [t] := by
  induction l with
  | nil => rfl
  | cons u l ih =>
    have hu := h u mem_cons_self
    rw [insertBySerial, if_neg (by omega), if_neg (by omega),
      ih fun v hv => h v (mem_cons_of_mem _ hv), cons_append]

/-- An entry splits the map in two parts without its serial. -/
theorem exists_split_of_mem (hl : (l.map Transaction.serial).Nodup) (hw : w ∈ l) :
    ∃ l₁ l₂, l = l₁ ++ w :: l₂ ∧ ∀ u ∈ l₁ ++ l₂, u.serial ≠ w.serial := by
  obtain ⟨l₁, l₂, rfl⟩ := append_of_mem hw
  refine ⟨l₁, l₂, rfl, ?_⟩
  rw [map_append, map_cons, nodup_middle, nodup_cons, ← map_append]
    at hl
  intro u hu heq
  exact hl.1 (mem_map.mpr ⟨u, hu, heq⟩)

theorem findSerial_split (h : ∀ u ∈ l₁ ++ l₂, u.serial ≠ w.serial) :
    findSerial w.serial (l₁ ++ w :: l₂) = some w := by
  have h₁ : l₁.find? (fun u => u.serial = w.serial) = none := by
    rw [find?_eq_none]
    intro u hu
    simpa using h u (mem_append_left _ hu)
  rw [findSerial, find?_append, h₁, Option.none_or]
  exact find?_cons_of_pos (by simp)

theorem setComplete_split (tick : ℕ) (h : ∀ u ∈ l₁ ++ l₂, u.serial ≠ w.serial) :
    setComplete w.serial tick (l₁ ++ w :: l₂) = l₁ ++ { w with complete := tick } :: l₂ := by
  have hkeep : ∀ l' : List Transaction, (∀ u ∈ l', u.serial ≠ w.serial) →
      setComplete w.serial tick l' = l' := by
    intro l' h'
    calc setComplete w.serial tick l' = l'.map id :=
          map_congr_left fun u hu => if_neg (h' u hu)
      _ = l' := map_id l'
  have h₁ := hkeep l₁ fun u hu => h u (mem_append_left _ hu)
  have h₂ := hkeep l₂ fun u hu => h u (mem_append_right _ hu)
  rw [setComplete] at h₁ h₂ ⊢
  rw [map_append, map_cons, h₁, h₂, if_pos rfl]

theorem eraseSerial_split (h : ∀ u ∈ l₁ ++ l₂, u.serial ≠ w.serial) :
    eraseSerial w.serial (l₁ ++ w :: l₂) = l₁ ++ l₂ := by
  have hkeep : (l₁ ++ l₂).filter (fun u => u.serial ≠ w.serial) = l₁ ++ l₂ :=
    filter_eq_self.mpr fun u hu => by simpa using h u hu
  rw [eraseSerial, filter_append, filter_cons_of_neg (by simp), ← filter_append,
    hkeep]

end Serials

/-! ## The last completed entry -/

section LastCompleted

variable {τ : Type} {complete : τ → ℕ} {before start : ℕ} {l : List τ} {x : τ}

theorem lastCompletedTransaction_cons (hl : l ≠ []) :
    lastCompletedTransaction complete before (x :: l) =
      if before ≤ complete x then
        (lastCompletedTransaction complete before l).map fun p => (x :: p.1, p.2)
      else .ok ([], x) := by
  cases l with
  | nil => exact absurd rfl hl
  | cons y l => rfl

/-- The entry that is found completed before the tick, or is the oldest; the later ones did
not. -/
theorem lastCompletedTransaction_spec (complete : τ → ℕ) (before : ℕ) (hl : l ≠ []) :
    ∃ newer it older, lastCompletedTransaction complete before l = .ok (newer, it) ∧
      l = newer ++ it :: older ∧ (∀ y ∈ newer, before ≤ complete y) ∧
      (complete it < before ∨ older = []) := by
  induction l with
  | nil => exact absurd rfl hl
  | cons x l ih =>
    by_cases hnil : l = []
    · subst hnil
      exact ⟨[], x, [], rfl, rfl, by simp, .inr rfl⟩
    rw [lastCompletedTransaction_cons hnil]
    by_cases hx : before ≤ complete x
    · obtain ⟨newer, it, older, hf, rfl, hnewer, hit⟩ := ih hnil
      refine ⟨x :: newer, it, older, ?_, rfl, ?_, hit⟩
      · rw [if_pos hx, hf]
        rfl
      · intro y hy
        rcases mem_cons.mp hy with rfl | hy
        · exact hx
        · exact hnewer y hy
    · exact ⟨[], x, l, if_neg hx, rfl, by simp, .inl (by omega)⟩

/-- An entry that completes at the tick or later is passed over. -/
theorem last_of_later (hx : before ≤ complete x) (hl : l ≠ []) :
    (lastCompletedTransaction complete before (x :: l)).map Prod.snd =
      (lastCompletedTransaction complete before l).map Prod.snd := by
  obtain ⟨newer, it, _, hf, -⟩ := lastCompletedTransaction_spec complete before hl
  rw [lastCompletedTransaction_cons hl, if_pos hx, hf]
  rfl

theorem eraseOlder_spec (complete : τ → ℕ) (before : ℕ) (hl : l ≠ []) :
    ∃ newer it older, eraseOlder complete before l = .ok (newer ++ [it]) ∧
      l = newer ++ it :: older ∧ (complete it < before ∨ older = []) := by
  obtain ⟨newer, it, older, hf, hl, -, hit⟩ := lastCompletedTransaction_spec complete before hl
  refine ⟨newer, it, older, ?_, hl, hit⟩
  rw [eraseOlder, hf]
  rfl

/-- What is erased is not found from a later tick. -/
theorem last_of_eraseOlder {kept : List τ} (hbefore : before ≤ start)
    (h : eraseOlder complete before l = .ok kept) :
    (lastCompletedTransaction complete start kept).map Prod.snd =
      (lastCompletedTransaction complete start l).map Prod.snd := by
  induction l generalizing kept with
  | nil => cases h
  | cons x l ih =>
    by_cases hnil : l = []
    · subst hnil
      cases h
      rfl
    rw [eraseOlder, lastCompletedTransaction_cons hnil] at h
    by_cases hx : before ≤ complete x
    · obtain ⟨newer, it, older, hf, hl, -⟩ := lastCompletedTransaction_spec complete before hnil
      rw [if_pos hx, hf] at h
      cases h
      have hkept : newer ++ [it] ≠ [] := by simp
      have hkeep : eraseOlder complete before l = .ok (newer ++ [it]) := by
        rw [eraseOlder, hf]
        rfl
      have hih := ih hkeep
      -- the entry is the one that is found, or both searches pass it over
      by_cases hs : start ≤ complete x
      · exact (last_of_later hs hkept).trans (hih.trans (last_of_later hs hnil).symm)
      · show (lastCompletedTransaction complete start (x :: (newer ++ [it]))).map Prod.snd = _
        rw [lastCompletedTransaction_cons hkept, lastCompletedTransaction_cons hnil, if_neg hs,
          if_neg hs]
    · rw [if_neg hx] at h
      cases h
      rw [lastCompletedTransaction_cons hnil, if_neg (by omega)]
      rfl

end LastCompleted

/-! ## The counters of a cluster -/

/-- In flight. -/
def Transaction.Open (w : Transaction) : Prop :=
  w.complete = tickFuture

instance (w : Transaction) : Decidable w.Open :=
  inferInstanceAs (Decidable (w.complete = tickFuture))

/-- A cluster at the tick `now`: it counts its writes in flight and is complete when there is
none left. -/
structure WriteCluster.Ok (c : WriteCluster) (now : ℕ) : Prop where
  serials : (c.writes.map Transaction.serial).Nodup
  start_le : ∀ w ∈ c.writes, w.start ≤ now
  span : ∀ w ∈ c.writes, w.Open ∨ (w.start ≤ w.complete ∧ w.complete ≤ c.completeMax)
  max_le : c.completeMax ≤ now
  count : c.numIncomplete = c.writes.countP fun w => w.Open
  state : (c.complete = tickFuture ∧ (c.numIncomplete = 0 → c.writes = [])) ∨
    (c.complete = c.completeMax ∧ c.numIncomplete = 0 ∧ c.writes ≠ [])

namespace WriteCluster

variable {c : WriteCluster} {w : Transaction} {now serial : ℕ}

theorem Ok.mono (h : c.Ok now) {now' : ℕ} (hle : now ≤ now') : c.Ok now' where
  serials := h.serials
  start_le w hw := (h.start_le w hw).trans hle
  span := h.span
  max_le := h.max_le.trans hle
  count := h.count
  state := h.state

/-- A complete cluster has a write, and none of its writes is in flight. -/
theorem Ok.of_complete (h : c.Ok now) (hc : c.complete ≠ tickFuture) :
    c.complete ≤ now ∧ c.writes ≠ [] ∧ ∀ w ∈ c.writes, ¬ w.Open ∧ w.complete ≤ c.complete := by
  rcases h.state with ⟨hc', -⟩ | ⟨hmax, hn, hne⟩
  · exact absurd hc' hc
  rw [hmax]
  refine ⟨h.max_le, hne, fun w hw => ?_⟩
  have hopen : ¬ w.Open := by
    have hcount := h.count.symm.trans hn
    simpa using countP_eq_zero.mp hcount w hw
  rcases h.span w hw with ho | hs
  · exact absurd ho hopen
  · exact ⟨hopen, hs.2⟩

/-- A cluster without a write in flight that is not complete is empty. -/
theorem Ok.complete_eq (h : c.Ok now) (hw : w ∈ c.writes) (hopen : w.Open) :
    c.complete = tickFuture := by
  by_contra hc
  exact ((h.of_complete hc).2.2 w hw).1 hopen

/-- A new cluster. -/
theorem ok_empty (now : ℕ) : ({} : WriteCluster).Ok now where
  serials := nodup_nil
  start_le _ hw := nomatch hw
  span _ hw := nomatch hw
  max_le := Nat.zero_le _
  count := rfl
  state := .inl ⟨rfl, fun _ => rfl⟩

theorem Ok.startWrite (h : c.Ok now) (hc : c.complete = tickFuture)
    (hstart : c.start = tickFuture ∨ c.start ≤ now) (hserial : ∀ w ∈ c.writes, w.serial < serial)
    (data : UInt8) :
    ∃ c', c.startWrite serial now data = .ok c' ∧ c'.Ok now ∧ c'.start ≤ now ∧
      c'.complete = tickFuture ∧
      c'.writes = c.writes ++ [{ serial, start := now, complete := tickFuture, data }] := by
  have hincomplete : ¬ c.isComplete = true := by simp [isComplete, hc]
  have hopened : (if c.start = tickFuture then now else c.start) ≤ now := by
    split <;> omega
  rw [WriteCluster.startWrite, if_neg hincomplete, if_pos hopened, insertBySerial_eq_append hserial]
  refine ⟨_, rfl, ?_, hopened, hc, rfl⟩
  constructor
  · rw [map_append, nodup_append]
    refine ⟨h.serials, by simp, ?_⟩
    intro n hn m hm
    obtain ⟨w, hw, rfl⟩ := mem_map.mp hn
    have hm : m = serial := by simpa using hm
    exact hm ▸ (hserial w hw).ne
  · intro w hw
    rcases mem_append.mp hw with hw | hw
    · exact h.start_le w hw
    · rw [mem_singleton.mp hw]
  · intro w hw
    rcases mem_append.mp hw with hw | hw
    · exact h.span w hw
    · exact .inl (by rw [mem_singleton.mp hw]; rfl)
  · exact h.max_le
  · show c.numIncomplete + 1 = _
    rw [countP_append, h.count]
    rfl
  · exact .inl ⟨hc, fun h0 => absurd h0 (Nat.succ_ne_zero _)⟩

/-- The number of writes in flight, when one of them is taken out. -/
theorem Ok.decrement_count (h : c.Ok now) {l₁ l₂ : List Transaction}
    (hsplit : c.writes = l₁ ++ w :: l₂) (hopen : w.Open) :
    decrement c.numIncomplete = (l₁ ++ l₂).countP fun w => w.Open := by
  have hcount : c.numIncomplete = (l₁ ++ l₂).countP (fun w => w.Open) + 1 := by
    rw [h.count, hsplit, countP_append, countP_append, countP_cons_of_pos (by simpa)]
    omega
  rw [decrement, hcount, if_neg (Nat.succ_ne_zero _), Nat.add_sub_cancel]

theorem Ok.completeWrite (h : c.Ok now) (hw : w ∈ c.writes) (hopen : w.Open)
    (hnow : now < tickFuture) :
    ∃ c', c.completeWrite w.serial now = .ok c' ∧ c'.Ok now ∧ c'.start = c.start ∧
      c'.writes = setComplete w.serial now c.writes := by
  obtain ⟨l₁, l₂, hsplit, hother⟩ := exists_split_of_mem h.serials hw
  have hfind := findSerial_split hother
  have hset := setComplete_split now hother
  have hcount := h.decrement_count hsplit hopen
  have hc := h.complete_eq hw hopen
  have hmax : (if c.completeMax < now then now else c.completeMax) = now := by
    have := h.max_le
    split <;> omega
  have hdone : ¬ Transaction.Open { w with complete := now } := hnow.ne
  rw [WriteCluster.completeWrite, hsplit, hfind]
  dsimp only
  rw [if_pos (show w.complete = tickFuture from hopen), hset, hmax]
  refine ⟨_, rfl, ?_, rfl, rfl⟩
  constructor
  · have := h.serials
    rw [hsplit] at this
    simpa using this
  · intro u hu
    rcases mem_append.mp hu with hu | hu
    · exact h.start_le u (by simp [hsplit, hu])
    · rcases mem_cons.mp hu with rfl | hu
      · exact h.start_le w hw
      · exact h.start_le u (by simp [hsplit, hu])
  · have hkeep : ∀ u ∈ c.writes, u.Open ∨ (u.start ≤ u.complete ∧ u.complete ≤ now) := fun u hu =>
      (h.span u hu).imp_right fun hs => ⟨hs.1, hs.2.trans h.max_le⟩
    intro u hu
    rcases mem_append.mp hu with hu | hu
    · exact hkeep u (by simp [hsplit, hu])
    · rcases mem_cons.mp hu with rfl | hu
      · exact .inr ⟨h.start_le w hw, le_refl _⟩
      · exact hkeep u (by simp [hsplit, hu])
  · exact le_refl now
  · rw [hcount, countP_append, countP_append, countP_cons_of_neg (by simpa)]
  · split_ifs with h0
    · exact .inr ⟨rfl, h0, by simp⟩
    · exact .inl ⟨hc, fun h0' => absurd h0' h0⟩

theorem Ok.abortWrite (h : c.Ok now) (hw : w ∈ c.writes) (hopen : w.Open) :
    (c.abortWrite w.serial).Ok now ∧ (c.abortWrite w.serial).start = c.start ∧
      (c.abortWrite w.serial).writes = eraseSerial w.serial c.writes := by
  obtain ⟨l₁, l₂, hsplit, hother⟩ := exists_split_of_mem h.serials hw
  have hfind := findSerial_split hother
  have herase := eraseSerial_split hother
  have hcount := h.decrement_count hsplit hopen
  have hc := h.complete_eq hw hopen
  have hsub : ∀ u ∈ l₁ ++ l₂, u ∈ c.writes := by
    intro u hu
    rw [hsplit]
    rcases mem_append.mp hu with hu | hu
    · exact mem_append_left _ hu
    · exact mem_append_right _ (mem_cons_of_mem _ hu)
  rw [WriteCluster.abortWrite, hsplit, hfind]
  dsimp only
  rw [herase]
  refine ⟨?_, rfl, rfl⟩
  constructor
  · refine List.Nodup.sublist ?_ h.serials
    rw [hsplit]
    exact ((sublist_cons_self w l₂).append_left l₁).map _
  · exact fun u hu => h.start_le u (hsub u hu)
  · exact fun u hu => h.span u (hsub u hu)
  · exact h.max_le
  · exact hcount
  · split_ifs with h0
    · exact .inr ⟨rfl, h0.1, h0.2⟩
    · exact .inl ⟨hc, fun hn => by_contra fun hne => h0 ⟨hn, hne⟩⟩

end WriteCluster

/-! ## The scan -/

section Scan

variable (o : Transaction) (start : ℕ) (v : UInt8)

/-- The write completed before the last observation started. -/
def Skipped (w : Transaction) : Prop :=
  w.complete < o.start

/-- The write completed before the read, so that the scan ends with its cluster. -/
def Stops (w : Transaction) : Prop :=
  ¬ Skipped o w ∧ w.complete ≤ start

/-- The write lies between the last observation and the read. -/
def Outdates (w : Transaction) : Prop :=
  Stops o start w ∧ o.complete < w.start

/-- A write with `P` is found from the latest cluster on, past clusters whose writes have `Q`. -/
def Reaches (P Q : Transaction → Prop) : List WriteCluster → Prop
  | [] => False
  | c :: cs => (∃ w ∈ c.writes, P w) ∨ ((∀ w ∈ c.writes, Q w) ∧ Reaches P Q cs)

/-- The write is in one of the clusters. -/
def Tracked (cl : List WriteCluster) (w : Transaction) : Prop :=
  ∃ c ∈ cl, w ∈ c.writes

variable {o start v} {s s' : Scan} {c : WriteCluster} {rest : List WriteCluster}
  {w : Transaction}

theorem Tracked.of_head (hw : w ∈ c.writes) : Tracked (c :: rest) w :=
  ⟨c, mem_cons_self, hw⟩

theorem Tracked.of_tail (hw : Tracked rest w) : Tracked (c :: rest) w := by
  obtain ⟨d, hd, hw⟩ := hw
  exact ⟨d, mem_cons_of_mem _ hd, hw⟩

theorem tracked_cons : Tracked (c :: rest) w ↔ w ∈ c.writes ∨ Tracked rest w := by
  constructor
  · rintro ⟨d, hd, hw⟩
    rcases mem_cons.mp hd with rfl | hd
    · exact .inl hw
    · exact .inr ⟨d, hd, hw⟩
  · rintro (hw | hw)
    · exact .of_head hw
    · exact .of_tail hw

/-- What the scan of some writes has found out when it goes on. -/
structure Scanned (o : Transaction) (start : ℕ) (writes : Transaction → Prop) (s s' : Scan) :
    Prop where
  overlap : (∀ w, writes w → ¬ Stops o start w) → s'.wcOverlap = s.wcOverlap
  valid : (∀ w, writes w → ¬ Outdates o start w) → s'.lastObsValid = s.lastObsValid
  invalid : s.lastObsValid = false → s'.lastObsValid = false

theorem Scanned.refl (s : Scan) (writes : Transaction → Prop) : Scanned o start writes s s :=
  ⟨fun _ => rfl, fun _ => rfl, fun h => h⟩

theorem Scanned.trans {s₁ : Scan} {ws ws₁ ws₂ : Transaction → Prop} (h₁ : Scanned o start ws₁ s s₁)
    (h₂ : Scanned o start ws₂ s₁ s') (hsub₁ : ∀ w, ws₁ w → ws w) (hsub₂ : ∀ w, ws₂ w → ws w) :
    Scanned o start ws s s' where
  overlap h := (h₂.overlap fun w hw => h w (hsub₂ w hw)).trans
    (h₁.overlap fun w hw => h w (hsub₁ w hw))
  valid h := (h₂.valid fun w hw => h w (hsub₂ w hw)).trans
    (h₁.valid fun w hw => h w (hsub₁ w hw))
  invalid h := h₂.invalid (h₁.invalid h)

theorem scanWrite_eq_some {w : Transaction} (h : scanWrite o start v s w = some s') :
    (¬ Skipped o w → w.data ≠ v) ∧ Scanned o start (· = w) s s' := by
  rw [scanWrite] at h
  by_cases hskip : w.complete < o.start
  · rw [if_pos hskip] at h
    cases h
    exact ⟨fun hns => absurd hskip hns, .refl _ _⟩
  rw [if_neg hskip] at h
  by_cases hdata : w.data = v
  · rw [if_pos hdata] at h
    cases h
  rw [if_neg hdata] at h
  refine ⟨fun _ => hdata, ?_⟩
  by_cases hover : start < w.complete
  · rw [if_pos hover] at h
    cases h
    exact ⟨fun _ => rfl, fun _ => rfl, fun hv => hv⟩
  · rw [if_neg hover] at h
    cases h
    have hstop : Stops o start w := ⟨hskip, by omega⟩
    refine ⟨fun hno => absurd hstop (hno w rfl), fun hno => ?_, fun hv => ?_⟩
    · have hold : ¬ o.complete < w.start := fun hlt => hno w rfl ⟨hstop, hlt⟩
      simp [hold]
    · simp [hv]

theorem scanWrites_eq_some {ws : List Transaction}
    (h : ws.foldlM (scanWrite o start v) s = some s') :
    (∀ w ∈ ws, ¬ Skipped o w → w.data ≠ v) ∧ Scanned o start (· ∈ ws) s s' := by
  induction ws generalizing s with
  | nil =>
    cases h
    exact ⟨by simp, .refl _ _⟩
  | cons w ws ih =>
    rw [foldlM_cons, Option.bind_eq_bind, Option.bind_eq_some_iff] at h
    obtain ⟨s₁, hw, hws⟩ := h
    obtain ⟨hdata, hscan⟩ := scanWrite_eq_some hw
    obtain ⟨hdatas, hscans⟩ := ih hws
    refine ⟨?_, hscan.trans hscans (by simp) (by simp +contextual)⟩
    intro u hu
    rcases mem_cons.mp hu with rfl | hu
    · exact hdata
    · exact hdatas u hu

theorem scanClusters_scanned {cl : List WriteCluster}
    (h : scanClusters o start v s cl = some s') : Scanned o start (Tracked cl) s s' := by
  induction cl generalizing s with
  | nil =>
    cases h
    exact .refl _ _
  | cons c cl ih =>
    rw [scanClusters] at h
    by_cases hover : s.wcOverlap = true
    · rw [if_pos hover, Option.bind_eq_some_iff] at h
      obtain ⟨s₁, hc, hcl⟩ := h
      refine (scanWrites_eq_some hc).2.trans (ih hcl) ?_ ?_
      · exact fun w hw => .of_head hw
      · exact fun w hw => .of_tail hw
    · rw [if_neg hover] at h
      cases h
      exact .refl _ _

/-- The scan does not go past a match. -/
theorem scanClusters_not_reaches {cl : List WriteCluster}
    (h : scanClusters o start v s cl = some s') (hs : s.wcOverlap = true) :
    ¬ Reaches (fun w => ¬ Skipped o w ∧ w.data = v) (fun w => ¬ Stops o start w) cl := by
  induction cl generalizing s with
  | nil => exact id
  | cons c cl ih =>
    rw [scanClusters, if_pos hs, Option.bind_eq_some_iff] at h
    obtain ⟨s₁, hc, hcl⟩ := h
    obtain ⟨hdata, hscan⟩ := scanWrites_eq_some hc
    rintro (⟨w, hw, hns, hv⟩ | ⟨hno, hreach⟩)
    · exact hdata w hw hns hv
    · exact ih hcl ((hscan.overlap hno).trans hs) hreach

end Scan

/-! ## Accepted values -/

/-- The reasons for which a read that started at `start` may return `v`: a write that took
effect and that the scan gets to, the last observation `o`, or the initial value. -/
def Accepted (taken : ℕ → Bool) (cl : List WriteCluster) (o : Transaction) (start : ℕ)
    (v : UInt8) : Prop :=
  Reaches (fun w => taken w.serial = true ∧ ¬ Skipped o w ∧ w.data = v)
      (fun w => ¬ Stops o start w) cl ∨
    (o.complete ≠ tickInitial ∧ o.data = v ∧ ∀ w, Tracked cl w → ¬ Outdates o start w) ∨
    (o.complete = tickInitial ∧ ∀ w, Tracked cl w → ¬ Stops o start w)

theorem Reaches.mono {P P' Q Q' : Transaction → Prop} {cl : List WriteCluster}
    (h : Reaches P Q cl) (hP : ∀ w, Tracked cl w → P w → P' w)
    (hQ : ∀ w, Tracked cl w → Q w → Q' w) : Reaches P' Q' cl := by
  induction cl with
  | nil => exact h
  | cons c cl ih =>
    rcases h with ⟨w, hw, hPw⟩ | ⟨hall, hreach⟩
    · exact .inl ⟨w, hw, hP w (.of_head hw) hPw⟩
    · exact .inr ⟨fun w hw => hQ w (.of_head hw) (hall w hw),
        ih hreach (fun w hw => hP w hw.of_tail) (fun w hw => hQ w hw.of_tail)⟩

theorem allOverlap_eq_ok {t : ByteTracker} {start complete : ℕ} (hne : t.writeClusters ≠ [])
    (h : ∀ c ∈ t.writeClusters, c.start < complete ∧ start < c.complete) :
    t.allOverlap start complete = .ok true := by
  rw [ByteTracker.allOverlap, getLast?_eq_some_getLast hne, head?_eq_some_head hne]
  have hlast := h _ (getLast_mem hne)
  have hhead := h _ (head_mem hne)
  dsimp only
  rw [if_pos ⟨hlast.1, hhead.2⟩]

/-- **A value that is accepted is expected**, and no assertion fails. -/
theorem inExpectedData_of_accepted {t : ByteTracker} {taken : ℕ → Bool} {o : Transaction}
    {start complete : ℕ} {v : UInt8} (ho : t.lastObservation start = .ok o)
    (hstart : o.complete = tickInitial ∨ o.complete < start)
    (hacc : Accepted taken t.writeClusters o start v)
    (hover : o.complete = tickInitial → (∀ w, Tracked t.writeClusters w → ¬ Stops o start w) →
      ∀ c ∈ t.writeClusters, c.start < complete ∧ start < c.complete) :
    t.inExpectedData start complete v = .ok true := by
  rw [ByteTracker.inExpectedData, ho]
  dsimp only [bind, Except.bind]
  split
  · rfl
  rename_i s hs
  have hscan := scanClusters_scanned hs
  rcases hacc with hreach | ⟨hvalid, hdata, hno⟩ | ⟨hinitial, hno⟩
  · refine absurd (hreach.mono ?_ fun _ _ h => h) (scanClusters_not_reaches hs rfl)
    exact fun w _ h => h.2
  · -- no write lies between the observation and the read
    have hv : s.lastObsValid = true := (hscan.valid hno).trans (by simpa using hvalid)
    rw [ByteTracker.afterScan, if_pos hv, if_pos (by omega), if_pos hdata]
  · have hv : ¬ s.lastObsValid = true := by
      rw [hscan.invalid (by simpa using hinitial)]
      exact Bool.false_ne_true
    rw [ByteTracker.afterScan, if_neg hv]
    by_cases hnil : t.writeClusters = []
    · -- nothing has been written nor read
      rw [if_neg (fun h => h.1 hnil)]
      rw [hnil] at hs
      cases hs
      exact (if_pos rfl).trans (if_pos hinitial)
    · rw [if_pos ⟨hnil, hscan.overlap hno⟩]
      exact allOverlap_eq_ok hnil (hover hinitial hno)

end MemChecker
