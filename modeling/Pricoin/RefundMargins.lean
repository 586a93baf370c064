import Pricoin.SwapStore

/-!
The heights at which the refunds of the two coins open. The setter compares them with
each other and never with the tips of their chains. Counted in blocks that are still to
come, the foreign refund therefore opens late enough for all accepted heights only when
the foreign chain is not ahead of the other.
-/
namespace Pricoin.RefundMargins

open ByteStreams KeyImageFile DurableRecords AdaptorSwaps SwapHistories SwapSafety

variable {pric foreign delta : Int32}

section Heights

/-- Counted from the tips, the foreign refund opens at least `delta` blocks after the other. -/
def Margin (pricTip foreignTip : ℤ) (pric foreign delta : Int32) : Prop :=
  pric.toInt - pricTip + delta.toInt ≤ foreign.toInt - foreignTip

theorem toInt_sub_of_pos (hpric : 0 < pric) (hforeign : 0 < foreign) :
    (foreign - pric).toInt = foreign.toInt - pric.toInt := by
  have hpos : 0 < pric.toInt := Int32.lt_iff_toInt_lt.mp hpric
  have hpos' : 0 < foreign.toInt := Int32.lt_iff_toInt_lt.mp hforeign
  have hlt : pric.toInt < 2 ^ 31 := pric.toInt_lt
  have hlt' : foreign.toInt < 2 ^ 31 := foreign.toInt_lt
  rw [Int32.toInt_sub]
  apply Int.bmod_eq_of_le
  · omega
  · omega

/-- What the validator compares. -/
theorem validateRefundTimelocks_eq_ok :
    validateRefundTimelocks pric foreign delta = .ok ↔
      0 < pric ∧ 0 < foreign ∧ 0 < delta ∧ pric < foreign ∧
        pric.toInt + delta.toInt ≤ foreign.toInt := by
  unfold validateRefundTimelocks
  split_ifs with hpric hforeign hdelta horder hmargin
  · simp [Int32.not_lt.mpr hpric]
  · simp [Int32.not_lt.mpr hforeign]
  · simp [Int32.not_lt.mpr hdelta]
  · simp [Int32.not_lt.mpr horder]
  all_goals
    rw [Int32.not_le] at hpric hforeign hdelta horder
    rw [Int32.lt_iff_toInt_lt, toInt_sub_of_pos hpric hforeign] at hmargin
    simp only [hpric, hforeign, hdelta, horder, true_and, false_iff, true_iff]
    omega

/-- When the foreign chain is not ahead, the heights leave the margin from the tips on. -/
theorem margin_of_le {pricTip foreignTip : ℤ}
    (h : validateRefundTimelocks pric foreign delta = .ok) (htips : foreignTip ≤ pricTip) :
    Margin pricTip foreignTip pric foreign delta := by
  have hmargin := (validateRefundTimelocks_eq_ok.mp h).2.2.2.2
  unfold Margin
  omega

end Heights

section Calls

variable {κ δ ρ ι ε : Type} [DecidableEq κ] [DecidableEq δ]

theorem persist_fst (fmt : Format κ δ ρ) (seals : Sealing ι) (env : Conditions ι)
    (inMemory record : ρ) (c : Cache κ δ ρ) :
    (persist fmt seals env inMemory record c).1 = (env.seed.isSome && env.writes) := by
  unfold persist writeRecord
  cases env.seed with
  | none => rfl
  | some seed => cases env.writes <;> rfl

/-- A change is written just when the rows are loaded, the change is taken and rows can be
written. What is written plays no part. -/
theorem amend_eq_written (fmt : Format κ δ ρ) (seals : Sealing ι) (env : Conditions ι) (key : κ)
    (change : Option ρ → Except ε (ρ × ρ)) (c : Cache κ δ ρ) :
    (amend fmt seals env key change c).1 = .written ↔
      env.locked = false ∧ (ensureLoaded fmt seals env c).1 = .done ∧
      (∃ p, change ((ensureLoaded fmt seals env c).2.store key) = .ok p) ∧
      (env.seed.isSome && env.writes) = true := by
  unfold amend
  cases hlocked : env.locked with
  | true => simp
  | false =>
    generalize ensureLoaded fmt seals env c = result
    obtain ⟨loading, c'⟩ := result
    cases loading with
    | threw => simp
    | failed => simp
    | done =>
      cases hchange : change (c'.store key) with
      | error e => simp [hchange]
      | ok p =>
        rw [← persist_fst fmt seals env p.1 p.2 c']
        generalize hpersist : persist fmt seals env p.1 p.2 c' = written
        obtain ⟨ok, c''⟩ := written
        cases ok <;> simp [hchange, hpersist]

theorem amend_refused {fmt : Format κ δ ρ} {seals : Sealing ι} {env : Conditions ι} {key : κ}
    {change : Option ρ → Except ε (ρ × ρ)} {c : Cache κ δ ρ} {e : ε}
    (h : (amend fmt seals env key change c).1 = .refused e) :
    ∃ existing, change existing = .error e := by
  unfold amend at h
  split at h
  · cases h
  · split at h
    · cases h
    · cases h
    · split at h
      · rename_i e' herror
        obtain rfl := Outcome.refused.inj h
        exact ⟨_, herror⟩
      · split at h <;> cases h

end Calls

section Setter

variable {ι : Type} {decodeTx : Text → Option Uint256} {seals : Sealing ι} {env : Env ι}
variable {swapId : Uint256} {c : Wallet}

theorem mutate_timelocks (pric foreign delta : Int32) (s : AdaptorSwap) :
    (setRefundTimelocks pric foreign delta).mutate s =
      if s.state = .setup then .ok (recomputeAdaptorReady { s with
        pricRefundHeight := pric, foreignRefundHeight := foreign, deltaMinBlocks := delta
        timelocksSet := true })
      else .error .invalidState := by
  by_cases hstate : s.state = .setup
  · rw [if_pos hstate]
    simp only [setRefundTimelocks, hstate]
    rfl
  · rw [if_neg hstate]
    simp only [setRefundTimelocks, Checks.rejectIf, if_pos hstate]
    rfl

/-- The record takes the heights in its first state, whatever they are. -/
theorem setterChange_timelocks (pric foreign delta : Int32) (nowSec : Int64)
    (existing : Option AdaptorSwap) :
    (∃ p, setterChange nowSec (setRefundTimelocks pric foreign delta) existing = .ok p) ↔
      ∃ s, existing = some s ∧ s.state = .setup := by
  cases existing with
  | none => simp [setterChange]
  | some s =>
    rw [setterChange, mutate_timelocks]
    by_cases hstate : s.state = .setup
    · rw [if_pos hstate]
      exact iff_of_true ⟨_, rfl⟩ ⟨s, rfl, hstate⟩
    · rw [if_neg hstate]
      refine iff_of_false ?_ (by simpa using hstate)
      rintro ⟨p, hp⟩
      cases hp

theorem setterChange_timelocks_ne (nowSec : Int64) (existing : Option AdaptorSwap) :
    setterChange nowSec (setRefundTimelocks pric foreign delta) existing ≠ .error .ok := by
  cases existing with
  | none =>
    intro h
    cases h
  | some s =>
    rw [setterChange, mutate_timelocks]
    intro h
    split_ifs at h
    cases h

/-- The heights matter to the setter for their order only. -/
theorem call_setRefundTimelocks_eq_ok :
    (call decodeTx seals env swapId (.setRefundTimelocks pric foreign delta) c).1 = some .ok ↔
      validateRefundTimelocks pric foreign delta = .ok ∧ env.locked = false ∧
      (ensureLoaded (format decodeTx) seals env.toConditions c).1 = .done ∧
      (∃ s, (ensureLoaded (format decodeTx) seals env.toConditions c).2.store swapId = some s ∧
        s.state = .setup) ∧
      (env.seed.isSome && env.writes) = true := by
  by_cases hvalid : validateRefundTimelocks pric foreign delta = .ok
  swap
  · have hcall : call decodeTx seals env swapId (.setRefundTimelocks pric foreign delta) c =
        (some .invalidTimelocks, c) := by
      simp only [call, Transition.setter, setRefundTimelocks, Checks.rejectIf, if_pos hvalid]
    rw [hcall]
    exact iff_of_false (by simp) fun h => hvalid h.1
  have hcall : call decodeTx seals env swapId (.setRefundTimelocks pric foreign delta) c =
      mutateAndPersist decodeTx seals env swapId (setRefundTimelocks pric foreign delta) c := by
    simp only [call, Transition.setter, setRefundTimelocks, Checks.rejectIf, hvalid,
      ne_eq, not_true_eq_false, if_false]
  rw [hcall, mutateAndPersist]
  simp only [hvalid, true_and]
  rw [← setterChange_timelocks pric foreign delta env.nowSec, ← amend_eq_written]
  constructor
  · intro hresult
    by_contra hne
    refine absurd hresult (Outcome.result_ne hne (by decide) (by decide) fun e he hok => ?_)
    obtain ⟨existing, herror⟩ := amend_refused he
    exact setterChange_timelocks_ne env.nowSec existing (hok ▸ herror)
  · intro hwritten
    rw [hwritten]
    rfl

end Setter

section Statement

variable {ι : Type}

/-- Where a swap can take heights, all it may take leave the margin just when the foreign chain is
not ahead of the other. -/
theorem margin_iff_not_ahead (decodeTx : Text → Option Uint256) (seals : Sealing ι)
    (env : Env ι) (swapId : Uint256) (c : Wallet) (pricTip foreignTip : ℤ)
    (htakes : ∃ pric foreign delta, (call decodeTx seals env swapId
      (.setRefundTimelocks pric foreign delta) c).1 = some .ok) :
    (∀ pric foreign delta,
      (call decodeTx seals env swapId (.setRefundTimelocks pric foreign delta) c).1 = some .ok →
        Margin pricTip foreignTip pric foreign delta) ↔
      foreignTip ≤ pricTip := by
  constructor
  · intro hmargin
    obtain ⟨pric, foreign, delta, hok⟩ := htakes
    -- the smallest heights that are accepted leave nothing over
    have hleast : Margin pricTip foreignTip 1 2 1 := by
      refine hmargin 1 2 1 (call_setRefundTimelocks_eq_ok.mpr ⟨by decide, ?_⟩)
      exact (call_setRefundTimelocks_eq_ok.mp hok).2
    unfold Margin at hleast
    have h₁ : (1 : Int32).toInt = 1 := by decide
    have h₂ : (2 : Int32).toInt = 2 := by decide
    rw [h₁, h₂] at hleast
    omega
  · intro htips pric foreign delta hok
    exact margin_of_le (call_setRefundTimelocks_eq_ok.mp hok).1 htips

/-- A swap that has its adaptor points and waits for its heights. -/
def waitingWallet : Wallet :=
  run sampleDecode plainSealing ((samplePath .bob ltc (some sampleSecret)).take 2)

/-- The foreign refund opens in 100 blocks, the other in 480, and 144 are demanded between. -/
theorem call_ok_without_margin :
    (call sampleDecode plainSealing sampleEnv sampleId (.setRefundTimelocks 1480 850100 144)
      waitingWallet).1 = some .ok ∧
    ¬ Margin 1000 850000 1480 850100 144 := by
  refine ⟨by decide +kernel, ?_⟩
  unfold Margin
  decide

theorem margin_iff_not_ahead_waiting :
    (call sampleDecode plainSealing sampleEnv sampleId (.setRefundTimelocks 1480 1700 144)
      waitingWallet).1 = some .ok ∧
    Margin 1000 850 1480 1700 144 := by
  have hok : (call sampleDecode plainSealing sampleEnv sampleId (.setRefundTimelocks 1480 1700 144)
      waitingWallet).1 = some .ok := by
    decide +kernel
  have hmargin := (margin_iff_not_ahead sampleDecode plainSealing sampleEnv sampleId waitingWallet
    1000 850 ⟨1480, 1700, 144, hok⟩).mpr (by decide)
  exact ⟨hok, hmargin 1480 1700 144 hok⟩

end Statement

end Pricoin.RefundMargins
