/-
# Speculation in the tournament predictor

`TournamentBP` (`src/cpu/pred/tournament.cc`): a local, a global and a choice
predictor.  `lookup`, `btbUpdate` and `uncondBranch` shift the predicted
direction into the histories at once; `squash` is called for the branches that
were fetched in vain, youngest first.

`squash` puts back the global history of the branch and nothing else.  A local
history keeps the directions of the squashed branches, so it is as before where
no conditional branch maps to it, and nowhere else for all counters and
histories (`tournament_squash_untouched`).

The tables are functions of the index, and their sizes are given by exponents.
The counters change in `update` only, which is not called here.

* `TournamentBP.speculate`    — fetching branches.
* `TournamentBP.squashAll`    — squashing them.
* `TournamentBP.SpeculationUndone` — what squashing should achieve.
* `TournamentBP.Untouched`    — the entries for which it does.
-/
import Mathlib

open Function

/-! ## The predictor -/

/-- The sizes and thresholds, the counters and the histories. -/
structure TournamentBP where
  localHistoryBits : ℕ
  localHistoryTableBits : ℕ
  globalPredictorBits : ℕ
  choicePredictorBits : ℕ
  instShiftAmt : ℕ
  localThreshold : ℕ
  globalThreshold : ℕ
  choiceThreshold : ℕ
  localCtrs : ℕ → ℕ
  globalCtrs : ℕ → ℕ
  choiceCtrs : ℕ → ℕ
  localHistoryTable : ℕ → BitVec 32
  globalHistory : BitVec 32
  /-- The sizes are powers of two of type `unsigned`. -/
  localHistoryBits_lt : localHistoryBits < 32
  localHistoryTableBits_lt : localHistoryTableBits < 32
  globalPredictorBits_lt : globalPredictorBits < 32
  choicePredictorBits_lt : choicePredictorBits < 32

/-- What a branch needs to be updated or squashed. -/
structure BPHistory where
  globalHistory : BitVec 32
  localHistory : BitVec 32
  localPredTaken : Bool
  globalPredTaken : Bool
  globalUsed : Bool

/-- The direction that is predicted. -/
def BPHistory.taken (h : BPHistory) : Bool :=
  if h.globalUsed then h.globalPredTaken else h.localPredTaken

namespace TournamentBP

/-- `mask(nbits)`. -/
def maskOf (bits : ℕ) : BitVec 32 := BitVec.ofNat 32 (2 ^ bits - 1)

variable (bp : TournamentBP)

/-- The bits of a local history. -/
def localPredictorMask : BitVec 32 := maskOf bp.localHistoryBits

/-- The bits that the global predictor looks at. -/
def globalHistoryMask : BitVec 32 := maskOf bp.globalPredictorBits

/-- The bits that the choice predictor looks at. -/
def choiceHistoryMask : BitVec 32 := maskOf bp.choicePredictorBits

/-- The bits of the global history. -/
def historyRegisterMask : BitVec 32 :=
  maskOf (max bp.globalPredictorBits bp.choicePredictorBits)

variable (branchAddr : ℕ)

/-- The entry of the local histories for a branch. -/
def calcLocHistIdx : ℕ :=
  (branchAddr >>> bp.instShiftAmt) &&& (2 ^ bp.localHistoryTableBits - 1)

/-- A direction is shifted into a history. -/
def shiftIn (history : BitVec 32) (taken : Bool) : BitVec 32 :=
  if taken then history <<< 1 ||| 1#32 else history <<< 1

/-- `updateGlobalHistTaken` and `updateGlobalHistNotTaken`. -/
def updateGlobalHist (taken : Bool) : TournamentBP :=
  { bp with globalHistory := shiftIn bp.globalHistory taken &&& bp.historyRegisterMask }

/-- `updateLocalHistTaken` and `updateLocalHistNotTaken`. -/
def updateLocalHist (idx : ℕ) (taken : Bool) : TournamentBP :=
  { bp with localHistoryTable :=
      Function.update bp.localHistoryTable idx (shiftIn (bp.localHistoryTable idx) taken) }

/-- The lowest bits of the histories are cleared. -/
def btbUpdate : TournamentBP :=
  { bp with
    globalHistory := bp.globalHistory &&& (bp.historyRegisterMask &&& ~~~1#32)
    localHistoryTable := Function.update bp.localHistoryTable (bp.calcLocHistIdx branchAddr)
      (bp.localHistoryTable (bp.calcLocHistIdx branchAddr) &&&
        (bp.localPredictorMask &&& ~~~1#32)) }

/-- What `lookup` reads, as it records it. -/
def recordLookup : BPHistory :=
  let localPredictorIdx :=
    bp.localHistoryTable (bp.calcLocHistIdx branchAddr) &&& bp.localPredictorMask
  { globalHistory := bp.globalHistory
    localPredTaken := decide (bp.localCtrs localPredictorIdx.toNat > bp.localThreshold)
    globalPredTaken := decide
      (bp.globalCtrs (bp.globalHistory &&& bp.globalHistoryMask).toNat > bp.globalThreshold)
    globalUsed := decide
      (bp.choiceCtrs (bp.globalHistory &&& bp.choiceHistoryMask).toNat > bp.choiceThreshold)
    localHistory := localPredictorIdx }

/-- Predict a conditional branch. -/
def lookup : TournamentBP × BPHistory :=
  let history := bp.recordLookup branchAddr
  ((bp.updateGlobalHist history.taken).updateLocalHist (bp.calcLocHistIdx branchAddr) history.taken,
    history)

/-- An unconditional branch counts as taken. -/
def uncondBranch : TournamentBP × BPHistory :=
  (bp.updateGlobalHist true,
    { globalHistory := bp.globalHistory
      localPredTaken := true
      globalPredTaken := true
      globalUsed := true
      localHistory := BitVec.allOnes 32 })

/-- Only the global history goes back. -/
def squash (history : BPHistory) : TournamentBP :=
  { bp with globalHistory := history.globalHistory }

end TournamentBP

/-! ## Fetching and squashing -/

/-- A branch that is fetched: a conditional one is looked up, and if the BTB has no target for it,
`btbUpdate` follows. -/
inductive Fetched
  | conditional (branchAddr : ℕ) (btbMiss : Bool)
  | unconditional

namespace TournamentBP

variable (bp : TournamentBP)

/-- One branch, and what is kept for it. -/
def fetch : Fetched → TournamentBP × BPHistory
  | .conditional branchAddr btbMiss =>
    let r := bp.lookup branchAddr
    (if btbMiss then r.1.btbUpdate branchAddr else r.1, r.2)
  | .unconditional => bp.uncondBranch

/-- The branches are fetched in order. -/
def speculate (bp : TournamentBP) : List Fetched → TournamentBP × List BPHistory
  | [] => (bp, [])
  | b :: bs =>
    let r := (bp.fetch b).1.speculate bs
    (r.1, (bp.fetch b).2 :: r.2)

/-- The branches are squashed, the last one first. -/
def squashAll (histories : List BPHistory) : TournamentBP :=
  histories.reverse.foldl squash bp

/-- **Speculation undone**, for the local histories in `P`: they and the global history are as they
were, and so are all later predictions that read no other local history. -/
structure SpeculationUndone (P : ℕ → Prop) (bp bp' : TournamentBP) : Prop where
  globalHistory : bp'.globalHistory = bp.globalHistory
  localHistory : ∀ idx, P idx → bp'.localHistoryTable idx &&& bp'.localPredictorMask =
    bp.localHistoryTable idx &&& bp.localPredictorMask
  predictions : ∀ branches : List Fetched,
    (∀ branchAddr btbMiss, .conditional branchAddr btbMiss ∈ branches →
      P (bp.calcLocHistIdx branchAddr)) →
    (bp'.speculate branches).2.map BPHistory.taken = (bp.speculate branches).2.map BPHistory.taken

/-- No conditional branch maps to the local history, or it has no bits. -/
def Untouched (branches : List Fetched) (idx : ℕ) : Prop :=
  bp.localHistoryBits = 0 ∨ ∀ branchAddr btbMiss, .conditional branchAddr btbMiss ∈ branches →
    bp.calcLocHistIdx branchAddr ≠ idx

/-! ## The local histories -/

/-- The local history under the mask. -/
def localHistoryOf (idx : ℕ) : ℕ :=
  (bp.localHistoryTable idx &&& bp.localPredictorMask).toNat

variable (x : BitVec 32)

theorem toNat_and_maskOf {bits : ℕ} (h : bits < 32) :
    (x &&& maskOf bits).toNat = x.toNat % 2 ^ bits := by
  have hlt : 2 ^ bits - 1 < 2 ^ 32 :=
    (Nat.sub_le _ _).trans_lt (Nat.pow_lt_pow_right (by decide) h)
  rw [BitVec.toNat_and, maskOf, BitVec.toNat_ofNat, Nat.mod_eq_of_lt hlt,
    Nat.and_two_pow_sub_one_eq_mod]

theorem toNat_shiftIn (taken : Bool) :
    (shiftIn x taken).toNat = (2 * x.toNat + taken.toNat) % 2 ^ 32 := by
  cases taken with
  | false =>
    simp only [shiftIn, Bool.false_eq_true, if_false, BitVec.toNat_shiftLeft, Nat.shiftLeft_eq,
      Bool.toNat_false]
    omega
  | true =>
    have hor : (x.toNat % 2 ^ 31) <<< 1 ||| 1 = (x.toNat % 2 ^ 31) <<< 1 + 1 :=
      (Nat.shiftLeft_add_eq_or_of_lt (by decide) _).symm
    have heven : x.toNat <<< 1 % 2 ^ 32 = (x.toNat % 2 ^ 31) <<< 1 := by
      omega
    simp only [shiftIn, if_true, BitVec.toNat_or, BitVec.toNat_shiftLeft, heven]
    show (x.toNat % 2 ^ 31) <<< 1 ||| 1 = _
    rw [Bool.toNat_true]
    omega

/-- Clearing the lowest bit is shifting it out and back. -/
theorem and_not_one : x &&& ~~~1#32 = x >>> 1 <<< 1 := by
  apply BitVec.eq_of_getLsbD_eq
  intro i hi
  rw [BitVec.getLsbD_and, BitVec.getLsbD_not]
  cases i with
  | zero => simp
  | succ i => simp [hi, add_comm]

theorem toNat_and_clear {bits : ℕ} (h : bits < 32) :
    (x &&& (maskOf bits &&& ~~~1#32)).toNat = 2 * (x.toNat / 2) % 2 ^ bits := by
  have hclear : (x &&& ~~~1#32).toNat = 2 * (x.toNat / 2) := by
    rw [and_not_one, BitVec.toNat_shiftLeft, BitVec.toNat_ushiftRight]
    omega
  rw [← hclear, ← toNat_and_maskOf _ h, BitVec.and_comm (maskOf bits), ← BitVec.and_assoc]

theorem localHistoryOf_eq (idx : ℕ) :
    bp.localHistoryOf idx = (bp.localHistoryTable idx).toNat % 2 ^ bp.localHistoryBits :=
  toNat_and_maskOf _ bp.localHistoryBits_lt

/-- The direction is shifted in, and the highest bit is lost. -/
theorem localHistory_shiftIn (taken : Bool) {bits : ℕ} (h : bits < 32) :
    (shiftIn x taken).toNat % 2 ^ bits = (2 * (x.toNat % 2 ^ bits) + taken.toNat) % 2 ^ bits := by
  rw [toNat_shiftIn, Nat.mod_mod_of_dvd _ (pow_dvd_pow 2 (le_of_lt h))]
  exact (((Nat.mod_modEq _ _).mul_left 2).add_right _).symm

/-- Without a BTB entry the direction is not taken. -/
theorem localHistory_clear (taken : Bool) {bits : ℕ} (h : bits < 32) :
    (shiftIn x taken &&& (maskOf bits &&& ~~~1#32)).toNat = 2 * (x.toNat % 2 ^ bits) % 2 ^ bits := by
  have hhalf : 2 * ((shiftIn x taken).toNat / 2) = 2 * x.toNat % 2 ^ 32 := by
    rw [toNat_shiftIn]
    cases taken with
    | false => rw [Bool.toNat_false]; omega
    | true => rw [Bool.toNat_true]; omega
  rw [toNat_and_clear _ h, hhalf, Nat.mod_mod_of_dvd _ (pow_dvd_pow 2 (le_of_lt h))]
  exact ((Nat.mod_modEq _ _).mul_left 2).symm

/-! ## One branch -/

/-- The predictor without its histories. -/
def config : TournamentBP :=
  { bp with localHistoryTable := fun _ => 0, globalHistory := 0 }

/-- Fetching changes the histories only. -/
theorem config_fetch (b : Fetched) : (bp.fetch b).1.config = bp.config := by
  cases b with
  | conditional branchAddr btbMiss => cases btbMiss <;> rfl
  | unconditional => rfl

variable (bs : List Fetched)

theorem config_speculate : ∀ bp : TournamentBP,
    (bp.speculate bs).1.config = bp.config := by
  induction bs with
  | nil => intro bp; rfl
  | cons b bs ih => exact fun bp => (ih _).trans (config_fetch bp b)

/-- What does not depend on the histories. -/
theorem of_config {γ : Type} (f : TournamentBP → γ) (hf : ∀ c, f c = f c.config)
    {bp bp' : TournamentBP} (h : bp'.config = bp.config) : f bp' = f bp := by
  rw [hf bp', h, ← hf bp]

theorem localHistoryBits_of_config {bp bp' : TournamentBP} (h : bp'.config = bp.config) :
    bp'.localHistoryBits = bp.localHistoryBits :=
  of_config TournamentBP.localHistoryBits (fun _ => rfl) h

/-- **A conditional branch** shifts its direction into its local history, or not taken if the BTB
has no target. -/
theorem localHistoryOf_fetch_conditional (branchAddr : ℕ) (btbMiss : Bool)
    (idx : ℕ) : (bp.fetch (.conditional branchAddr btbMiss)).1.localHistoryOf idx =
      if bp.calcLocHistIdx branchAddr = idx then
        (2 * bp.localHistoryOf idx + ((bp.recordLookup branchAddr).taken && !btbMiss).toNat) %
          2 ^ bp.localHistoryBits
      else bp.localHistoryOf idx := by
  have hb := bp.localHistoryBits_lt
  rw [localHistoryOf_eq, localHistoryOf_eq]
  by_cases hidx : bp.calcLocHistIdx branchAddr = idx
  · subst hidx
    rw [if_pos rfl]
    cases btbMiss with
    | false =>
      have htable : (bp.fetch (.conditional branchAddr false)).1.localHistoryTable
          (bp.calcLocHistIdx branchAddr) = shiftIn (bp.localHistoryTable
            (bp.calcLocHistIdx branchAddr)) (bp.recordLookup branchAddr).taken :=
        update_self _ _ _
      rw [htable, Bool.not_false, Bool.and_true]
      exact localHistory_shiftIn _ _ hb
    | true =>
      have htable : (bp.fetch (.conditional branchAddr true)).1.localHistoryTable
          (bp.calcLocHistIdx branchAddr) = shiftIn (bp.localHistoryTable
            (bp.calcLocHistIdx branchAddr)) (bp.recordLookup branchAddr).taken &&&
              (maskOf bp.localHistoryBits &&& ~~~1#32) := by
        have hlookup : (bp.lookup branchAddr).1.localHistoryTable (bp.calcLocHistIdx branchAddr) =
            shiftIn (bp.localHistoryTable (bp.calcLocHistIdx branchAddr))
              (bp.recordLookup branchAddr).taken := update_self _ _ _
        rw [← hlookup]
        exact update_self _ _ _
      rw [htable, localHistory_clear _ _ hb, Bool.not_true, Bool.and_false]
      exact Nat.mod_mod _ _
  · rw [if_neg hidx]
    have htable : (bp.fetch (.conditional branchAddr btbMiss)).1.localHistoryTable idx =
        bp.localHistoryTable idx := by
      cases btbMiss with
      | false => exact update_of_ne (Ne.symm hidx) _ _
      | true =>
        exact (update_of_ne (Ne.symm hidx) _ _).trans
          (update_of_ne (Ne.symm hidx) _ _)
    rw [htable]
    cases btbMiss <;> rfl

theorem calcLocHistIdx_of_config {bp bp' : TournamentBP} (h : bp'.config = bp.config)
    (branchAddr : ℕ) : bp'.calcLocHistIdx branchAddr = bp.calcLocHistIdx branchAddr :=
  of_config (fun c => c.calcLocHistIdx branchAddr) (fun _ => rfl) h

theorem untouched_of_config {bp bp' : TournamentBP} (h : bp'.config = bp.config)
    (branches : List Fetched) (idx : ℕ) : bp'.Untouched branches idx = bp.Untouched branches idx := by
  unfold Untouched
  simp only [localHistoryBits_of_config h, calcLocHistIdx_of_config h]

/-- An untouched local history stays. -/
theorem localHistoryOf_speculate {idx : ℕ} (bs : List Fetched) : ∀ bp : TournamentBP,
    bp.Untouched bs idx → (bp.speculate bs).1.localHistoryOf idx = bp.localHistoryOf idx := by
  induction bs with
  | nil => exact fun bp _ => rfl
  | cons b bs ih =>
    intro bp h
    have hfetch : (bp.fetch b).1.localHistoryOf idx = bp.localHistoryOf idx := by
      cases b with
      | unconditional => rfl
      | conditional branchAddr btbMiss =>
        rcases h with hbits | hne
        · rw [localHistoryOf_eq, localHistoryOf_eq,
            localHistoryBits_of_config (config_fetch bp _), hbits]
          omega
        · rw [localHistoryOf_fetch_conditional, if_neg (hne _ _ List.mem_cons_self)]
    rw [speculate, ih _ ?_, hfetch]
    rw [untouched_of_config (config_fetch bp b)]
    exact h.imp_right fun hne a m hm => hne a m (List.mem_cons_of_mem _ hm)

/-- The same sizes, with counters that never predict taken. -/
def neverTaken (localHistoryTable : ℕ → BitVec 32) : TournamentBP :=
  { bp with
    localCtrs := fun _ => 0
    globalCtrs := fun _ => 0
    choiceCtrs := fun _ => 0
    localHistoryTable := localHistoryTable }

theorem taken_neverTaken {table : ℕ → BitVec 32} {c : TournamentBP}
    (hc : c.config = (bp.neverTaken table).config) (branchAddr : ℕ) :
    (c.recordLookup branchAddr).taken = false := by
  have hlocal : c.localCtrs = fun _ => 0 := of_config TournamentBP.localCtrs (fun _ => rfl) hc
  have hglobal : c.globalCtrs = fun _ => 0 := of_config TournamentBP.globalCtrs (fun _ => rfl) hc
  have hchoice : c.choiceCtrs = fun _ => 0 := of_config TournamentBP.choiceCtrs (fun _ => rfl) hc
  simp [recordLookup, BPHistory.taken, hlocal, hglobal, hchoice]

/-- If no branch is predicted taken, then a local history is even once a branch has mapped to it. -/
theorem even_localHistoryOf_speculate {idx : ℕ} (bs : List Fetched) : ∀ bp : TournamentBP,
    (∀ b : TournamentBP, b.config = bp.config → ∀ a, (b.recordLookup a).taken = false) →
    bp.localHistoryBits ≠ 0 →
    (2 ∣ bp.localHistoryOf idx ∨ ∃ branchAddr btbMiss, .conditional branchAddr btbMiss ∈ bs ∧
      bp.calcLocHistIdx branchAddr = idx) → 2 ∣ (bp.speculate bs).1.localHistoryOf idx := by
  induction bs with
  | nil =>
    intro bp _ _ h
    rcases h with h | ⟨_, _, hmem, _⟩
    · exact h
    · cases hmem
  | cons b bs ih =>
    intro bp hnever hbits h
    have hconfig := config_fetch bp b
    refine ih _ (fun c hc => hnever c (hc.trans hconfig))
      (by rwa [localHistoryBits_of_config hconfig]) ?_
    simp only [calcLocHistIdx_of_config hconfig]
    cases b with
    | unconditional =>
      refine h.imp_right fun ⟨a, m, hmem, hidx⟩ => ⟨a, m, ?_, hidx⟩
      rcases List.mem_cons.mp hmem with heq | hmem
      · cases heq
      · exact hmem
    | conditional branchAddr btbMiss =>
      rw [localHistoryOf_fetch_conditional, hnever bp rfl, Bool.false_and, Bool.toNat_false]
      by_cases hidx : bp.calcLocHistIdx branchAddr = idx
      · rw [if_pos hidx]
        exact .inl ((Nat.dvd_mod_iff (dvd_pow_self 2 hbits)).mpr ⟨_, rfl⟩)
      · rw [if_neg hidx]
        refine h.imp_right fun ⟨a, m, hmem, ha⟩ => ⟨a, m, ?_, ha⟩
        rcases List.mem_cons.mp hmem with heq | hmem
        · cases heq
          exact absurd ha hidx
        · exact hmem

/-! ## All branches -/

/-- Squashing gives back the global history of the first branch and changes nothing else. -/
theorem squashAll_speculate :
    (bp.speculate bs).1.squashAll (bp.speculate bs).2 =
      { (bp.speculate bs).1 with globalHistory := bp.globalHistory } := by
  have hfold : ∀ (hs : List BPHistory) (r : TournamentBP),
      ∃ global, hs.foldl squash r = { r with globalHistory := global } := by
    intro hs
    induction hs with
    | nil => exact fun r => ⟨r.globalHistory, rfl⟩
    | cons h hs ih => exact fun r => ih (r.squash h)
  cases bs with
  | nil => rfl
  | cons b bs =>
    have hhistory : (bp.fetch b).2.globalHistory = bp.globalHistory := by cases b <;> rfl
    obtain ⟨global, hglobal⟩ := hfold ((bp.fetch b).1.speculate bs).2.reverse
      ((bp.fetch b).1.speculate bs).1
    rw [squashAll, speculate, List.reverse_cons, List.foldl_append, hglobal]
    simp only [List.foldl_cons, List.foldl_nil, squash, hhistory]

/-- Nothing that a prediction reads is different, for the local histories in `P`. -/
structure Agree (P : ℕ → Prop) (bp bp' : TournamentBP) : Prop where
  config : bp'.config = bp.config
  globalHistory : bp'.globalHistory = bp.globalHistory
  localHistory : ∀ idx, P idx → bp'.localHistoryOf idx = bp.localHistoryOf idx

variable {P : ℕ → Prop} {bp bp' : TournamentBP}

/-- What is read for a branch is the same. -/
theorem Agree.recordLookup (h : Agree P bp bp') {branchAddr : ℕ}
    (hP : P (bp.calcLocHistIdx branchAddr)) :
    bp'.recordLookup branchAddr = bp.recordLookup branchAddr := by
  have hlocal : bp'.localHistoryTable (bp.calcLocHistIdx branchAddr) &&& bp'.localPredictorMask =
      bp.localHistoryTable (bp.calcLocHistIdx branchAddr) &&& bp.localPredictorMask :=
    BitVec.eq_of_toNat_eq (h.localHistory _ hP)
  have hctrs : bp'.localCtrs = bp.localCtrs ∧ bp'.localThreshold = bp.localThreshold ∧
      bp'.globalCtrs = bp.globalCtrs ∧ bp'.globalThreshold = bp.globalThreshold ∧
      bp'.choiceCtrs = bp.choiceCtrs ∧ bp'.choiceThreshold = bp.choiceThreshold ∧
      bp'.globalHistoryMask = bp.globalHistoryMask ∧
      bp'.choiceHistoryMask = bp.choiceHistoryMask := by
    refine ⟨?_, ?_, ?_, ?_, ?_, ?_, ?_, ?_⟩
    · exact of_config TournamentBP.localCtrs (fun _ => rfl) h.config
    · exact of_config TournamentBP.localThreshold (fun _ => rfl) h.config
    · exact of_config TournamentBP.globalCtrs (fun _ => rfl) h.config
    · exact of_config TournamentBP.globalThreshold (fun _ => rfl) h.config
    · exact of_config TournamentBP.choiceCtrs (fun _ => rfl) h.config
    · exact of_config TournamentBP.choiceThreshold (fun _ => rfl) h.config
    · exact of_config TournamentBP.globalHistoryMask (fun _ => rfl) h.config
    · exact of_config TournamentBP.choiceHistoryMask (fun _ => rfl) h.config
  obtain ⟨h1, h2, h3, h4, h5, h6, h7, h8⟩ := hctrs
  unfold TournamentBP.recordLookup
  simp only [calcLocHistIdx_of_config h.config, hlocal, h.globalHistory, h1, h2, h3, h4, h5, h6, h7, h8]

/-- **One branch** is predicted the same, and leaves the same. -/
theorem Agree.fetch (h : Agree P bp bp') (b : Fetched)
    (hP : ∀ branchAddr btbMiss, b = .conditional branchAddr btbMiss →
      P (bp.calcLocHistIdx branchAddr)) :
    Agree P (bp.fetch b).1 (bp'.fetch b).1 ∧ (bp'.fetch b).2 = (bp.fetch b).2 := by
  have hmask : bp'.historyRegisterMask = bp.historyRegisterMask :=
    of_config TournamentBP.historyRegisterMask (fun _ => rfl) h.config
  have hconfig : (bp'.fetch b).1.config = (bp.fetch b).1.config := by
    rw [config_fetch, config_fetch, h.config]
  cases b with
  | unconditional =>
    refine ⟨⟨hconfig, ?_, h.localHistory⟩, ?_⟩
    · show shiftIn bp'.globalHistory true &&& bp'.historyRegisterMask = _
      rw [h.globalHistory, hmask]
      rfl
    · simp only [TournamentBP.fetch, uncondBranch, h.globalHistory]
  | conditional branchAddr btbMiss =>
    have hlookup := h.recordLookup (hP branchAddr btbMiss rfl)
    refine ⟨⟨hconfig, ?_, fun idx hidx => ?_⟩, hlookup⟩
    · cases btbMiss with
      | false =>
        show shiftIn bp'.globalHistory (bp'.recordLookup branchAddr).taken &&&
          bp'.historyRegisterMask = _
        rw [h.globalHistory, hmask, hlookup]
        rfl
      | true =>
        show shiftIn bp'.globalHistory (bp'.recordLookup branchAddr).taken &&&
          bp'.historyRegisterMask &&& (bp'.historyRegisterMask &&& ~~~1#32) = _
        rw [h.globalHistory, hmask, hlookup]
        rfl
    · rw [localHistoryOf_fetch_conditional, localHistoryOf_fetch_conditional,
        calcLocHistIdx_of_config h.config, hlookup, h.localHistory idx hidx,
        localHistoryBits_of_config h.config]

theorem Agree.speculate : ∀ {bp bp' : TournamentBP}, Agree P bp bp' →
    (∀ branchAddr btbMiss, .conditional branchAddr btbMiss ∈ bs →
      P (bp.calcLocHistIdx branchAddr)) →
    (bp'.speculate bs).2 = (bp.speculate bs).2 := by
  induction bs with
  | nil => intro bp bp' _ _; rfl
  | cons b bs ih =>
    intro bp bp' h hP
    obtain ⟨h', hhistory⟩ := h.fetch b fun a m hb => hP a m (hb ▸ List.mem_cons_self)
    rw [TournamentBP.speculate, TournamentBP.speculate, hhistory, ih h' ?_]
    intro a m hm
    rw [calcLocHistIdx_of_config (config_fetch bp b)]
    exact hP a m (List.mem_cons_of_mem _ hm)

end TournamentBP

open TournamentBP in
/-- **Squashing and the local histories.**  Squashing undoes speculation for the local histories
that no squashed conditional branch maps to, and for no others: with the same sizes there are
counters and histories for which it does not. -/
theorem tournament_squash_untouched (bp : TournamentBP) (branches : List Fetched) :
    bp.SpeculationUndone (bp.Untouched branches)
      ((bp.speculate branches).1.squashAll (bp.speculate branches).2) ∧
    ∀ idx, ¬ bp.Untouched branches idx → ∃ table, let bp' := bp.neverTaken table
      ((bp'.speculate branches).1.squashAll (bp'.speculate branches).2).localHistoryOf idx ≠
        bp'.localHistoryOf idx := by
  constructor
  · rw [squashAll_speculate]
    have hagree : Agree (bp.Untouched branches) bp
        { (bp.speculate branches).1 with globalHistory := bp.globalHistory } :=
      ⟨config_speculate branches bp, rfl, fun idx h => localHistoryOf_speculate branches bp h⟩
    exact ⟨rfl, fun idx h => BitVec.eq_of_toNat_eq (hagree.localHistory idx h),
      fun later hlater => congrArg _ (hagree.speculate later hlater)⟩
  · intro idx h
    unfold Untouched at h
    push Not at h
    obtain ⟨hbits, branchAddr, btbMiss, hmem, hidx⟩ := h
    -- a history of ones is odd, and the squashed branches leave it even
    refine ⟨fun _ => BitVec.allOnes 32, ?_⟩
    intro bp' heq
    have hbits' : bp'.localHistoryBits ≠ 0 := hbits
    have hodd : bp'.localHistoryOf idx % 2 = 1 := by
      rw [localHistoryOf_eq, Nat.mod_mod_of_dvd _ (dvd_pow_self 2 hbits')]
      show (BitVec.allOnes 32).toNat % 2 = 1
      rw [BitVec.toNat_allOnes]
    have heven : 2 ∣ (bp'.speculate branches).1.localHistoryOf idx :=
      even_localHistoryOf_speculate branches bp' (fun c hc => bp.taken_neverTaken hc) hbits'
        (.inr ⟨branchAddr, btbMiss, hmem, hidx⟩)
    rw [squashAll_speculate] at heq
    have heq : (bp'.speculate branches).1.localHistoryOf idx = bp'.localHistoryOf idx := heq
    omega

/-- The default sizes, with one branch that the local predictor has learnt to be taken. -/
def trainedBP : TournamentBP where
  localHistoryBits := 11
  localHistoryTableBits := 11
  globalPredictorBits := 13
  choicePredictorBits := 13
  instShiftAmt := 2
  localThreshold := 1
  globalThreshold := 1
  choiceThreshold := 1
  localCtrs := fun history => if history = 1 then 3 else 0
  globalCtrs := fun _ => 0
  choiceCtrs := fun _ => 0
  localHistoryTable := fun idx => if idx = 0 then 1 else 0
  globalHistory := 0
  localHistoryBits_lt := by decide
  localHistoryTableBits_lt := by decide
  globalPredictorBits_lt := by decide
  choicePredictorBits_lt := by decide

/-- A squashed branch leaves its direction in the local history, and the next prediction for the
same address is another one. -/
theorem squash_keeps_local_history :
    let squashed := (trainedBP.speculate [.conditional 0 false]).1.squashAll
      (trainedBP.speculate [.conditional 0 false]).2
    trainedBP.localHistoryOf 0 = 1 ∧ squashed.localHistoryOf 0 = 3 ∧
      (trainedBP.speculate [.conditional 0 false]).2.map BPHistory.taken = [true] ∧
      (squashed.speculate [.conditional 0 false]).2.map BPHistory.taken = [false] ∧
      ¬ trainedBP.SpeculationUndone (fun _ => True) squashed := by
  have hlater : trainedBP.localHistoryOf 0 = 1 ∧
      ((trainedBP.speculate [.conditional 0 false]).1.squashAll
        (trainedBP.speculate [.conditional 0 false]).2).localHistoryOf 0 = 3 := by decide +kernel
  refine ⟨hlater.1, hlater.2, by decide +kernel, by decide +kernel, fun h => ?_⟩
  have hlocal : _ = trainedBP.localHistoryOf 0 := congrArg BitVec.toNat (h.localHistory 0 trivial)
  exact absurd (hlater.2.symm.trans (hlocal.trans hlater.1)) (by decide)
