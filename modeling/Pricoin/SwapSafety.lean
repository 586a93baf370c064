import Pricoin.ClsagNonces
import Pricoin.SwapHistories

/-!
What holds of every swap record. Once funding is recorded the pre-signatures, the
adaptor and the time locks are in place, Bob has his secret as long as he may need it,
and the state only goes forward.
-/
namespace Pricoin.SwapSafety

open ByteStreams KeyImageFile DurableRecords AdaptorSwaps SwapHistories List

variable {decodeTx : Text → Option Uint256} {s : AdaptorSwap}

section Funds

/-- Nothing is missing once funds are recorded as locked. -/
structure FundsSafe (s : AdaptorSwap) : Prop where
  presigned : s.state ∈ [.btcFunded, .bothFunded, .pricClaimed, .complete, .refunded] →
    s.presigs.isComplete s.foreignChain = true
  adaptor : s.state ∈ [.btcFunded, .bothFunded, .pricClaimed, .complete, .refunded] →
    s.adaptorSet = true
  timelocks : s.state ∈ [.btcFunded, .bothFunded, .pricClaimed, .complete, .refunded] →
    s.timelocksSet = true ∧
      validateRefundTimelocks s.pricRefundHeight s.foreignRefundHeight s.deltaMinBlocks = .ok
  foreignFunding : s.state ∈ [.btcFunded, .bothFunded, .pricClaimed, .complete, .refunded] →
    s.foreignFundingTxid ≠ [] ∧ 0 ≤ s.foreignFundingVout ∧ 0 < s.foreignFundingHeight
  pricFunding : s.state ∈ [.bothFunded, .pricClaimed, .complete] →
    s.pricFundingTxid ≠ nullHash ∧ 0 ≤ s.pricFundingVout ∧ 0 < s.pricFundingHeight
  secret : s.role = .bob → s.state ∈ [.adaptorReady, .preSigned, .btcFunded, .bothFunded] →
    s.hasT = true

/-- What the setters keep, from the first state on. -/
structure Sound (s : AdaptorSwap) : Prop where
  ready : s.state ∈ [.adaptorReady, .preSigned, .btcFunded, .bothFunded, .pricClaimed, .complete,
      .refunded] →
    s.adaptorSet = true ∧ s.timelocksSet = true ∧
      validateRefundTimelocks s.pricRefundHeight s.foreignRefundHeight s.deltaMinBlocks = .ok
  armed : s.state ∈ [.preSigned, .btcFunded, .bothFunded, .pricClaimed, .complete, .refunded] →
    s.presigs.isComplete s.foreignChain = true
  foreign : s.state ∈ [.btcFunded, .bothFunded, .pricClaimed, .complete, .refunded] →
    s.foreignFundingTxid ≠ [] ∧ 0 ≤ s.foreignFundingVout ∧ 0 < s.foreignFundingHeight
  pric : s.state ∈ [.bothFunded, .pricClaimed, .complete] →
    s.pricFundingTxid ≠ nullHash ∧ 0 ≤ s.pricFundingVout ∧ 0 < s.pricFundingHeight
  secret : s.role = .bob → s.adaptorSet = true →
    s.state ∈ [.setup, .adaptorReady, .preSigned, .btcFunded, .bothFunded] → s.hasT = true

theorem Sound.fundsSafe (h : Sound s) : FundsSafe s where
  presigned hstate := h.armed (mem_cons_of_mem _ hstate)
  adaptor hstate := (h.ready (mem_cons_of_mem _ (mem_cons_of_mem _ hstate))).1
  timelocks hstate := (h.ready (mem_cons_of_mem _ (mem_cons_of_mem _ hstate))).2
  foreignFunding := h.foreign
  pricFunding := h.pric
  secret hrole hstate := by
    have hready : s.state ∈ [.adaptorReady, .preSigned, .btcFunded, .bothFunded, .pricClaimed,
        .complete, .refunded] := by
      simp only [mem_cons, not_mem_nil, or_false] at hstate ⊢
      tauto
    exact h.secret hrole (h.ready hready).1 (mem_cons_of_mem _ hstate)

/-- A record in the first state is sound if Bob has his secret with the adaptor. -/
theorem sound_of_setup (hstate : s.state = .setup)
    (hsecret : s.role = .bob → s.adaptorSet = true → s.hasT = true) : Sound s where
  ready h := by simp [hstate] at h
  armed h := by simp [hstate] at h
  foreign h := by simp [hstate] at h
  pric h := by simp [hstate] at h
  secret hrole hset _ := hsecret hrole hset

theorem Sound.recomputeAdaptorReady (h : Sound s) : Sound (recomputeAdaptorReady s) := by
  rcases recomputeAdaptorReady_cases s with heq | ⟨hstate, hset, hlocks, hvalid, heq⟩
  · rw [heq]
    exact h
  · rw [heq]
    exact
      { ready := fun _ => ⟨hset, hlocks, hvalid⟩
        armed := fun hmem => by simp at hmem
        foreign := fun hmem => by simp at hmem
        pric := fun hmem => by simp at hmem
        secret := fun hrole hset _ => h.secret hrole hset (by simp [hstate]) }

theorem inductive_sound : Inductive decodeTx Sound where
  new _ _ _ _ := sound_of_setup rfl fun _ hset => by cases hset
  stamp _ _ h := ⟨h.ready, h.armed, h.foreign, h.pric, h.secret⟩
  move s t s' h hmove := by
    cases hmove with
    | adaptorMaterials hstate hsecret =>
      refine Sound.recomputeAdaptorReady ?_
      rcases recordSecret_cases hsecret with ⟨hrole, rfl⟩ | ⟨secret, -, rfl⟩
      · exact sound_of_setup hstate fun hbob => absurd (hrole.symm.trans hbob) nofun
      · exact sound_of_setup hstate fun _ _ => rfl
    | refundTimelocks hstate =>
      refine Sound.recomputeAdaptorReady (sound_of_setup hstate fun hrole hset => ?_)
      exact h.secret hrole hset (by simp [hstate])
    | btcFunded htxid hvout hheight hstate hcomplete =>
      have hready := h.ready (by rcases hstate with hs | hs <;> simp [hs])
      exact
        { ready := fun _ => hready
          armed := fun _ => hcomplete
          foreign := fun _ => ⟨htxid, hvout, hheight⟩
          pric := fun hmem => by simp at hmem
          secret := fun hrole hset _ =>
            h.secret hrole hset (by rcases hstate with hs | hs <;> simp [hs]) }
    | pricFunded htxid hvout hheight hstate =>
      exact
        { ready := fun _ => h.ready (by simp [hstate])
          armed := fun _ => h.armed (by simp [hstate])
          foreign := fun _ => h.foreign (by simp [hstate])
          pric := fun _ => ⟨htxid, hvout, hheight⟩
          secret := fun hrole hset _ => h.secret hrole hset (by simp [hstate]) }
    | preSigned hstate hcomplete =>
      exact
        { ready := fun _ => h.ready (by simp [hstate])
          armed := fun _ => hcomplete
          foreign := fun hmem => by simp at hmem
          pric := fun hmem => by simp at hmem
          secret := fun hrole hset _ => h.secret hrole hset (by simp [hstate]) }
    | pricClaimed htxid hstate hm =>
      subst hm
      have hready := h.ready (by simp [hstate])
      have harmed := h.armed (by simp [hstate])
      have hforeign := h.foreign (by simp [hstate])
      have hpric := h.pric (by simp [hstate])
      split
      · exact ⟨fun _ => hready, fun _ => harmed, fun _ => hforeign, fun _ => hpric,
          fun _ _ hmem => by simp at hmem⟩
      · exact ⟨fun _ => hready, fun _ => harmed, fun _ => hforeign, fun _ => hpric,
          fun _ _ hmem => by simp at hmem⟩
    | newSecret => exact ⟨h.ready, h.armed, h.foreign, h.pric, fun _ _ _ => rfl⟩
    | coopsignSession => split <;> exact ⟨h.ready, h.armed, h.foreign, h.pric, h.secret⟩
    | pricFundingPlanned _ _ hstate _ hm =>
      subst hm
      have hbefore : s.state ∉ [.bothFunded, .pricClaimed, .complete] := by
        rcases hstate with hs | hs | hs | hs <;> simp [hs]
      split
      · exact ⟨h.ready, h.armed, h.foreign, fun hmem => absurd hmem hbefore, h.secret⟩
      · exact ⟨h.ready, h.armed, h.foreign, h.pric, h.secret⟩
    | complete htxid hstate =>
      exact
        { ready := fun _ => h.ready (by simp [hstate])
          armed := fun _ => h.armed (by simp [hstate])
          foreign := fun _ => h.foreign (by simp [hstate])
          pric := fun _ => h.pric (by simp [hstate])
          secret := fun _ _ hmem => by simp at hmem }
    | refunded hstate =>
      exact
        { ready := fun _ => h.ready (by rcases hstate with hs | hs | hs <;> simp [hs])
          armed := fun _ => h.armed (by rcases hstate with hs | hs | hs <;> simp [hs])
          foreign := fun _ => h.foreign (by rcases hstate with hs | hs | hs <;> simp [hs])
          pric := fun hmem => by simp at hmem
          secret := fun _ _ hmem => by simp at hmem }
    | abort _ hm =>
      subst hm
      split <;> exact ⟨fun hmem => by simp at hmem, fun hmem => by simp at hmem,
        fun hmem => by simp at hmem, fun hmem => by simp at hmem, fun _ _ hmem => by simp at hmem⟩
    | _ => exact ⟨h.ready, h.armed, h.foreign, h.pric, h.secret⟩

end Funds

section Progress

/-- The order in which the states follow each other. -/
def rank : State → ℕ
  | .setup => 0
  | .adaptorReady => 1
  | .preSigned => 2
  | .btcFunded => 3
  | .bothFunded => 4
  | .pricClaimed => 5
  | .complete => 6
  | .refunded => 6
  | .aborted => 6

theorem rank_le (state : State) : rank state ≤ 6 := by
  cases state <;> decide

variable {s s' : AdaptorSwap}

theorem Move.rank_le {t : Transition} (h : Move decodeTx s t s') :
    rank s.state ≤ rank s'.state := by
  cases h with
  | adaptorMaterials hstate => rw [hstate]; exact Nat.zero_le _
  | refundTimelocks hstate => rw [hstate]; exact Nat.zero_le _
  | btcFunded _ _ _ hstate => rcases hstate with hs | hs <;> simp [hs, rank]
  | pricFunded _ _ _ hstate => simp [hstate, rank]
  | preSigned hstate => simp [hstate, rank]
  | pricClaimed _ hstate => simp [hstate, rank]
  | coopsignSession => split <;> exact le_refl _
  | pricFundingPlanned _ _ _ _ hm => subst hm; split <;> exact le_refl _
  | complete => exact SwapSafety.rank_le _
  | refunded => exact SwapSafety.rank_le _
  | abort => exact SwapSafety.rank_le _
  | _ => exact le_refl _

theorem Later.rank_le (h : Later decodeTx s s') : rank s.state ≤ rank s'.state := by
  induction h with
  | refl => exact le_refl _
  | tail _ hstep ih =>
    obtain ⟨t, m, nowSec, haccepts, rfl⟩ := hstep
    have hmove := Move.rank_le haccepts.move
    exact ih.trans hmove

/-- In every run every record is safe, and no record goes back to an earlier state. -/
theorem fundsSafe_of_run {ι : Type} (decodeTx : Text → Option Uint256) (seals : Sealing ι) :
    (∀ (events : List (Event ι)) swapId s,
      found decodeTx seals (run decodeTx seals events) swapId = some s → FundsSafe s) ∧
    ∀ (pre post : List (Event ι)) swapId s s',
      found decodeTx seals (run decodeTx seals pre) swapId = some s →
      found decodeTx seals (run decodeTx seals (pre ++ post)) swapId = some s' →
      rank s.state ≤ rank s'.state :=
  ⟨fun _ _ _ hs => (inductive_sound.reached (reached_of_found hs)).fundsSafe,
    fun _ _ _ _ _ hs hs' => Later.rank_le (later_of_found hs hs')⟩

end Progress

section Sample

def sampleEnv : Env Unit := ⟨⟨false, true, some (), true⟩, 1, .replicate 32 1⟩

def sampleId : Uint256 := .replicate 32 2

def sampleTxid : Uint256 := .replicate 32 3

def sampleArgs (role : Role) (chain : Text) : CreateArgs where
  role := role
  counterpartyPub := .ofBytes (2 :: List.replicate 32 0)
  foreignChain := chain
  foreignAmountSat := 1
  pricJointStealthAddress := List.replicate 16 0
  pricAmountSat := 1
  memo := []
  btcAliceRecipientXonlyHex := []
  btcBobRecipientXonlyHex := []
  pricAliceRecipientStealth := []
  pricBobRecipientStealth := []
  swapIdPinned := some sampleId

def samplePreSigs : AdaptorSwapPreSigs :=
  ⟨List.replicate 64 1, List.replicate 133 1, 0, [1], List.replicate 64 1, [1]⟩

def sampleCall (t : Transition) : Event Unit := .call sampleEnv sampleId t

/-- The calls that lead to a record with both legs funded. -/
def samplePath (role : Role) (chain : Text) (secret : Option (Bytes 32)) : List (Event Unit) :=
  [.create sampleEnv (sampleArgs role chain),
    sampleCall (.setAdaptorMaterials (.replicate 33 2) (.replicate 33 3) [1]
      secret),
    sampleCall (.setRefundTimelocks 10 20 5),
    sampleCall (.setPreSigned samplePreSigs),
    sampleCall (.setBtcFunded (List.replicate 64 97) 0 1),
    sampleCall (.setPricFunded sampleTxid 0 1)]

/-- No transaction is decoded. -/
def sampleDecode : Text → Option Uint256 := fun _ => none

def sampleSecret : Bytes 32 := .replicate 32 7

theorem fundsSafe_of_run_bothFunded :
    ∃ s, found sampleDecode plainSealing (run sampleDecode plainSealing
        (samplePath .bob ltc (some sampleSecret))) sampleId = some s ∧
      s.state = .bothFunded ∧ FundsSafe s := by
  have hstate : (found sampleDecode plainSealing (run sampleDecode plainSealing
      (samplePath .bob ltc (some sampleSecret))) sampleId).map AdaptorSwap.state =
        some .bothFunded := by
    decide +kernel
  obtain ⟨s, hs, hbothFunded⟩ := Option.map_eq_some_iff.mp hstate
  exact ⟨s, hs, hbothFunded, (fundsSafe_of_run sampleDecode plainSealing).1 _ _ _ hs⟩

end Sample

end Pricoin.SwapSafety
