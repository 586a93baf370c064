import Pricoin.SwapSafety

/-!
The data that the pre-signatures of a swap are made for. Most of it is written once. The
setters that record a confirmed funding do not compare it with the planned one, and the
stealth ephemeral may be replaced at any time; the rest stays what it was when the
record became pre-signed.
-/
namespace Pricoin.SwapCeremony

open ByteStreams KeyImageFile DurableRecords AdaptorSwaps SwapHistories SwapSafety Runs Option

variable {ι : Type} {t : Transition} {s : AdaptorSwap}

section Statement

/-- A recorded funding is the planned one. -/
structure PlanKept (decodeTx : Text → Option Uint256) (s : AdaptorSwap) : Prop where
  pric : s.pricFundingUnsignedTxHex ≠ [] → 0 < s.pricFundingHeight →
    decodeTx s.pricFundingUnsignedTxHex = some s.pricFundingTxid ∧
      s.pricFundingVout = s.pricFundingPlannedVout
  btc : s.btcFundingPlannedTxid ≠ [] → s.foreignFundingTxid ≠ [] →
    s.foreignFundingTxid = s.btcFundingPlannedTxid ∧
      s.foreignFundingVout = s.btcFundingPlannedVout

/-- What was set in the first record is the same in the second. -/
structure Kept (s s' : AdaptorSwap) : Prop where
  pricClaimTx : s.pricClaimUnsignedTxHex ≠ [] →
    s'.pricClaimUnsignedTxHex = s.pricClaimUnsignedTxHex
  btcClaimTx : s.btcClaimUnsignedTxHex ≠ [] → s'.btcClaimUnsignedTxHex = s.btcClaimUnsignedTxHex
  pricRefundTx : s.pricRefundUnsignedTxHex ≠ [] →
    s'.pricRefundUnsignedTxHex = s.pricRefundUnsignedTxHex
  btcRefundTx : s.btcRefundUnsignedTxHex ≠ [] →
    s'.btcRefundUnsignedTxHex = s.btcRefundUnsignedTxHex
  ring : s.pricClaimRing ≠ [] → s'.pricClaimRing = s.pricClaimRing
  ringW : s.pricClaimRingW ≠ [] → s'.pricClaimRingW = s.pricClaimRingW
  pricPlan : s.pricFundingUnsignedTxHex ≠ [] →
    s'.pricFundingUnsignedTxHex = s.pricFundingUnsignedTxHex ∧
      s'.pricFundingPlannedVout = s.pricFundingPlannedVout
  btcPlan : s.btcFundingPlannedTxid ≠ [] →
    s'.btcFundingPlannedTxid = s.btcFundingPlannedTxid ∧
      s'.btcFundingPlannedVout = s.btcFundingPlannedVout
  peer : s.peerViewPubkeyHex ≠ [] ∨ s.peerSpendPubkeyHex ≠ [] →
    s'.peerViewPubkeyHex = s.peerViewPubkeyHex ∧ s'.peerSpendPubkeyHex = s.peerSpendPubkeyHex
  points : s'.T_G = s.T_G ∧ s'.T_H = s.T_H
  ephemeral : s.hasPricEphemeralR = true →
    s'.hasPricEphemeralR = true ∧ s'.pricEphemeralR = s.pricEphemeralR

variable (decodeTx : Text → Option Uint256) (seals : Sealing ι)

/-- A funding is recorded as it was planned, and the ephemeral of a pre-signed record is not
replaced. -/
def AsPlanned (c : Wallet) : Event ι → Prop
  | .call _ swapId (.setPricFunded txid vout _) =>
    ∀ s, found decodeTx seals c swapId = some s → s.pricFundingUnsignedTxHex ≠ [] →
      decodeTx s.pricFundingUnsignedTxHex = some txid ∧ vout = s.pricFundingPlannedVout
  | .call _ swapId (.setBtcFunded txid vout _) =>
    ∀ s, found decodeTx seals c swapId = some s → s.btcFundingPlannedTxid ≠ [] →
      txid = s.btcFundingPlannedTxid ∧ vout = s.btcFundingPlannedVout
  | .call _ swapId (.setPricEphemeralR r) =>
    ∀ s, found decodeTx seals c swapId = some s → 2 ≤ rank s.state →
      s.hasPricEphemeralR = true → r = s.pricEphemeralR
  | _ => True

end Statement

section Plans

variable {decodeTx : Text → Option Uint256} {s s' : AdaptorSwap}

/-- No funding is recorded before it is. -/
structure Unfunded (s : AdaptorSwap) : Prop where
  pric : rank s.state ≤ 3 → s.pricFundingHeight = 0
  foreign : rank s.state ≤ 2 → s.foreignFundingTxid = []

theorem unfunded_of_rank (h : 3 < rank s.state) : Unfunded s :=
  ⟨fun hrank => absurd h (by omega), fun hrank => absurd h (by omega)⟩

theorem Unfunded.recomputeAdaptorReady (h : Unfunded s) (hstate : s.state = .setup) :
    Unfunded (recomputeAdaptorReady s) := by
  have hpric := h.pric (by simp [hstate, rank])
  have hforeign := h.foreign (by simp [hstate, rank])
  rcases recomputeAdaptorReady_cases s with heq | ⟨-, -, -, -, heq⟩
  · rw [heq]
    exact h
  · rw [heq]
    exact ⟨fun _ => hpric, fun _ => hforeign⟩

theorem inductive_unfunded : Inductive decodeTx Unfunded where
  new _ _ _ _ := ⟨fun _ => rfl, fun _ => rfl⟩
  stamp _ _ h := ⟨h.pric, h.foreign⟩
  move s t s' h hmove := by
    cases hmove with
    | adaptorMaterials hstate hsecret =>
      rcases recordSecret_cases hsecret with ⟨-, rfl⟩ | ⟨secret, -, rfl⟩
      · exact Unfunded.recomputeAdaptorReady ⟨h.pric, h.foreign⟩ hstate
      · exact Unfunded.recomputeAdaptorReady ⟨h.pric, h.foreign⟩ hstate
    | refundTimelocks hstate =>
      exact Unfunded.recomputeAdaptorReady ⟨h.pric, h.foreign⟩ hstate
    | btcFunded _ _ _ hstate =>
      have hpric := h.pric (by rcases hstate with hs | hs <;> simp [hs, rank])
      exact ⟨fun _ => hpric, fun hrank => by simp [rank] at hrank⟩
    | pricFunded => exact unfunded_of_rank (by simp [rank])
    | preSigned hstate =>
      have hpric := h.pric (by simp [hstate, rank])
      have hforeign := h.foreign (by simp [hstate, rank])
      exact ⟨fun _ => hpric, fun _ => hforeign⟩
    | pricClaimed => exact unfunded_of_rank (by simp [rank])
    | coopsignSession => split <;> exact ⟨h.pric, h.foreign⟩
    | pricFundingPlanned _ _ _ _ hm => subst hm; split <;> exact ⟨h.pric, h.foreign⟩
    | complete => exact unfunded_of_rank (by simp [rank])
    | refunded => exact unfunded_of_rank (by simp [rank])
    | abort => exact unfunded_of_rank (by simp [rank])
    | _ => exact ⟨h.pric, h.foreign⟩

theorem planKept_recomputeAdaptorReady (h : PlanKept decodeTx s) :
    PlanKept decodeTx (recomputeAdaptorReady s) := by
  rcases recomputeAdaptorReady_cases s with heq | ⟨-, -, -, -, heq⟩
  · rw [heq]
    exact h
  · rw [heq]
    exact ⟨h.pric, h.btc⟩

/-- The plan is kept where the funding is recorded as planned. -/
theorem Move.planKept (hmove : Move decodeTx s t s') (hunfunded : Unfunded s)
    (h : PlanKept decodeTx s)
    (hpric : ∀ txid vout height, t = .setPricFunded txid vout height →
      s.pricFundingUnsignedTxHex ≠ [] →
      decodeTx s.pricFundingUnsignedTxHex = some txid ∧ vout = s.pricFundingPlannedVout)
    (hbtc : ∀ txid vout height, t = .setBtcFunded txid vout height →
      s.btcFundingPlannedTxid ≠ [] →
      txid = s.btcFundingPlannedTxid ∧ vout = s.btcFundingPlannedVout) :
    PlanKept decodeTx s' := by
  cases hmove with
  | adaptorMaterials hstate hsecret =>
    refine planKept_recomputeAdaptorReady ?_
    rcases recordSecret_cases hsecret with ⟨-, rfl⟩ | ⟨secret, -, rfl⟩
    · exact ⟨h.pric, h.btc⟩
    · exact ⟨h.pric, h.btc⟩
  | refundTimelocks => exact planKept_recomputeAdaptorReady ⟨h.pric, h.btc⟩
  | btcFunded => exact ⟨h.pric, fun hplan _ => hbtc _ _ _ rfl hplan⟩
  | pricFunded => exact ⟨fun hplan _ => hpric _ _ _ rfl hplan, h.btc⟩
  | pricClaimed _ _ hm => subst hm; split <;> exact ⟨h.pric, h.btc⟩
  | coopsignSession => split <;> exact ⟨h.pric, h.btc⟩
  | pricFundingPlanned _ _ hstate _ hm =>
    subst hm
    have hheight : s.pricFundingHeight = 0 :=
      hunfunded.pric (by rcases hstate with hs | hs | hs | hs <;> simp [hs, rank])
    split
    · exact ⟨fun _ hpos => absurd hpos (by simp [hheight]), h.btc⟩
    · exact ⟨fun _ hpos => absurd hpos (by simp [hheight]), h.btc⟩
  | btcFundingPlanned _ hstate =>
    have hforeign : s.foreignFundingTxid = [] :=
      hunfunded.foreign (by rcases hstate with hs | hs | hs <;> simp [hs, rank])
    exact ⟨h.pric, fun _ hfunded => absurd hforeign hfunded⟩
  | abort _ hm => subst hm; split <;> exact ⟨h.pric, h.btc⟩
  | _ => exact ⟨h.pric, h.btc⟩

end Plans

section Ceremony

variable {decodeTx : Text → Option Uint256} {s s' s'' : AdaptorSwap}

theorem Kept.refl (s : AdaptorSwap) : Kept s s :=
  ⟨fun _ => rfl, fun _ => rfl, fun _ => rfl, fun _ => rfl, fun _ => rfl, fun _ => rfl,
    fun _ => ⟨rfl, rfl⟩, fun _ => ⟨rfl, rfl⟩, fun _ => ⟨rfl, rfl⟩, ⟨rfl, rfl⟩,
    fun h => ⟨h, rfl⟩⟩

theorem Kept.trans (h : Kept s s') (h' : Kept s' s'') : Kept s s'' where
  pricClaimTx hset := by
    have heq := h.pricClaimTx hset
    rw [h'.pricClaimTx (heq ▸ hset), heq]
  btcClaimTx hset := by
    have heq := h.btcClaimTx hset
    rw [h'.btcClaimTx (heq ▸ hset), heq]
  pricRefundTx hset := by
    have heq := h.pricRefundTx hset
    rw [h'.pricRefundTx (heq ▸ hset), heq]
  btcRefundTx hset := by
    have heq := h.btcRefundTx hset
    rw [h'.btcRefundTx (heq ▸ hset), heq]
  ring hset := by
    have heq := h.ring hset
    rw [h'.ring (heq ▸ hset), heq]
  ringW hset := by
    have heq := h.ringW hset
    rw [h'.ringW (heq ▸ hset), heq]
  pricPlan hset := by
    obtain ⟨heq, hvout⟩ := h.pricPlan hset
    obtain ⟨heq', hvout'⟩ := h'.pricPlan (heq ▸ hset)
    exact ⟨heq'.trans heq, hvout'.trans hvout⟩
  btcPlan hset := by
    obtain ⟨heq, hvout⟩ := h.btcPlan hset
    obtain ⟨heq', hvout'⟩ := h'.btcPlan (heq ▸ hset)
    exact ⟨heq'.trans heq, hvout'.trans hvout⟩
  peer hset := by
    obtain ⟨hview, hspend⟩ := h.peer hset
    obtain ⟨hview', hspend'⟩ := h'.peer (by rw [hview, hspend]; exact hset)
    exact ⟨hview'.trans hview, hspend'.trans hspend⟩
  points := ⟨h'.points.1.trans h.points.1, h'.points.2.trans h.points.2⟩
  ephemeral hset := by
    obtain ⟨hhas, hr⟩ := h.ephemeral hset
    obtain ⟨hhas', hr'⟩ := h'.ephemeral hhas
    exact ⟨hhas', hr'.trans hr⟩

/-- A value that is there is not replaced by a supplied one. -/
theorem eq_of_supply {α : Type} [DecidableEq α] {new old value : List α}
    (h : supply nonempty nonempty new old = .ok value) (hold : old ≠ []) : value = old := by
  have hpresent : nonempty old = true := by simpa [nonempty] using hold
  unfold supply at h
  split_ifs at h with hnew hclash
  · exact (Except.ok.inj h).symm
  · have hsame : old = new := by
      by_contra hne
      exact hclash ⟨hpresent, hne⟩
    rw [hsame]
    exact (Except.ok.inj h).symm

theorem eq_of_once {α : Type} {old new : List α} (honce : old = [] ∨ old = new)
    (hset : old ≠ []) : new = old :=
  (honce.resolve_left hset).symm

/-- A pre-signed record keeps what it has, unless its ephemeral is replaced. -/
theorem Move.kept (hmove : Move decodeTx s t s') (hrank : 2 ≤ rank s.state)
    (hephemeral : ∀ r, t = .setPricEphemeralR r → s.hasPricEphemeralR = true →
      r = s.pricEphemeralR) : Kept s s' := by
  have hrefl := Kept.refl s
  cases hmove with
  | adaptorMaterials hstate => simp [hstate, rank] at hrank
  | refundTimelocks hstate => simp [hstate, rank] at hrank
  | ephemeralR => exact { hrefl with ephemeral := fun hset => ⟨rfl, hephemeral _ rfl hset⟩ }
  | claimRing hring hringW _ _ hhex =>
    exact { hrefl with
      pricClaimTx := eq_of_supply hhex
      ring := eq_of_once hring
      ringW := eq_of_supply hringW }
  | pricRefundTx _ honce => exact { hrefl with pricRefundTx := eq_of_once honce }
  | btcRefundTx _ honce => exact { hrefl with btcRefundTx := eq_of_once honce }
  | btcClaimTx _ honce => exact { hrefl with btcClaimTx := eq_of_once honce }
  | pricFundingPlanned _ _ _ honce hm =>
    subst hm
    have hplan : s.pricFundingUnsignedTxHex ≠ [] → _ ∧ _ := fun hset => by
      obtain ⟨hhex, hvout⟩ := honce.resolve_left hset
      exact ⟨hhex.symm, hvout.symm⟩
    split
    · exact { hrefl with pricPlan := hplan }
    · exact { hrefl with pricPlan := hplan }
  | btcFundingPlanned _ _ honce =>
    refine { hrefl with btcPlan := fun hset => ?_ }
    obtain ⟨htxid, hvout⟩ := honce.resolve_left hset
    exact ⟨htxid.symm, hvout.symm⟩
  | peerStealthPubkeys _ honce =>
    refine { hrefl with peer := fun hset => ?_ }
    rcases honce with ⟨hview, hspend⟩ | ⟨hview, hspend⟩
    · rcases hset with hset | hset
      · exact absurd hview hset
      · exact absurd hspend hset
    · exact ⟨hview.symm, hspend.symm⟩
  | pricClaimed _ _ hm => subst hm; split <;> exact { hrefl with }
  | coopsignSession => split <;> exact { hrefl with }
  | abort _ hm => subst hm; split <;> exact { hrefl with }
  | _ => exact { hrefl with }

end Ceremony

section Runs

variable {decodeTx : Text → Option Uint256} {seals : Sealing ι}

theorem planKept_step {c : Wallet} {event : Event ι} {table table' : Table} {reply : Reply}
    (h : KeepsTo decodeTx seals c table) (hevent : AsPlanned decodeTx seals c event)
    (heffect : Effect decodeTx (found decodeTx seals c) table event reply table')
    (hall : ∀ swapId s, table swapId = some s → PlanKept decodeTx s) :
    ∀ swapId s, table' swapId = some s → PlanKept decodeTx s := by
  refine heffect.forall_record ?_ ?_ hall
  · intro nowSec swapId counterpartyPub args
    exact ⟨fun hhex => absurd rfl hhex, fun htxid => absurd rfl htxid⟩
  · rintro env swapId t s m rfl hview hs haccepts hkept
    have hunfunded := inductive_unfunded.reached (h.reached swapId s hs)
    have hm : PlanKept decodeTx m := by
      refine Move.planKept haccepts.move hunfunded hkept ?_ ?_
      · rintro txid vout height rfl
        exact hevent s hview
      · rintro txid vout height rfl
        exact hevent s hview
    exact ⟨hm.pric, hm.btc⟩

theorem kept_step {c : Wallet} {event : Event ι} {table table' : Table} {reply : Reply}
    {swapId : Uint256} (hevent : AsPlanned decodeTx seals c event)
    (heffect : Effect decodeTx (found decodeTx seals c) table event reply table')
    (hs : HoldsAt swapId (fun s' => 2 ≤ rank s'.state ∧ Kept s s') table) :
    HoldsAt swapId (fun s' => 2 ≤ rank s'.state ∧ Kept s s') table' := by
  refine heffect.holdsAt ?_ hs
  rintro env t s' m rfl hview haccepts ⟨hrank, hkept⟩
  have hmove := haccepts.move
  have hm : Kept s' m := by
    refine Move.kept hmove hrank ?_
    rintro r rfl
    exact hevent s' hview hrank
  have hrank' : 2 ≤ rank m.state := hrank.trans (Move.rank_le hmove)
  have hkept' := hkept.trans hm
  exact ⟨hrank', { hkept' with }⟩

/-- In a run whose fundings are recorded as planned and whose ephemerals are not replaced, a
recorded funding is the planned one, and what a pre-signed record has set stays. -/
theorem kept_of_asPlanned (decodeTx : Text → Option Uint256) (seals : Sealing ι)
    (events : List (Event ι))
    (hevents : Always (step decodeTx seals) (AsPlanned decodeTx seals) emptyWallet
      events) :
    (∀ pre post swapId s, events = pre ++ post →
      found decodeTx seals (run decodeTx seals pre) swapId = some s →
      PlanKept decodeTx s) ∧
    ∀ pre mid post swapId s s', events = pre ++ mid ++ post →
      found decodeTx seals (run decodeTx seals pre) swapId = some s →
      2 ≤ rank s.state →
      found decodeTx seals (run decodeTx seals (pre ++ mid)) swapId = some s' →
      Kept s s' := by
  constructor
  · rintro pre post swapId s rfl hs
    obtain ⟨table, htable, hall⟩ := keepsTo_always
      (fun table => ∀ swapId s, table swapId = some s → PlanKept decodeTx s)
      (fun _ _ _ _ h hevent heffect => planKept_step h hevent heffect)
      (Always.append.mp hevents).1 (keepsTo_empty decodeTx seals) (fun _ _ hs => by cases hs)
    exact hall swapId s (htable.table_of_found hs)
  · rintro pre mid post swapId s s' rfl hs hrank hs'
    obtain ⟨table, htable⟩ := keepsTo_run decodeTx seals pre
    have hmid := (Always.append.mp (Always.append.mp hevents).1).2
    obtain ⟨table', htable', last, hlast, -, hkept⟩ := keepsTo_always
      (HoldsAt swapId fun s' => 2 ≤ rank s'.state ∧ Kept s s')
      (fun _ _ _ _ _ hevent heffect => kept_step hevent heffect) hmid htable
      ⟨s, htable.table_of_found hs, hrank, Kept.refl s⟩
    rw [AdaptorSwaps.run, List.foldl_append] at hs'
    obtain rfl := some.inj (hlast.symm.trans (htable'.table_of_found hs'))
    exact hkept

end Runs

section Sample

/-- Every text is a transaction with this id. -/
def plannedTxid : Uint256 := .replicate 32 5

def plannedDecode : Text → Option Uint256 := fun _ => some plannedTxid

def readyPath : List (Event Unit) :=
  [.create sampleEnv (sampleArgs .bob btc),
    sampleCall (.setAdaptorMaterials (.replicate 33 2) (.replicate 33 3) [1]
      (some sampleSecret)),
    sampleCall (.setRefundTimelocks 10 20 5)]

/-- The calls up to a pre-signed record with both fundings planned. -/
def plannedPath : List (Event Unit) :=
  readyPath ++
    [sampleCall (.setPricEphemeralR (.replicate 32 8)),
      sampleCall (.setPricFundingPlanned (List.replicate 20 48) 0),
      sampleCall (.setBtcFundingPlanned [] (List.replicate 64 97) 0),
      sampleCall (.setPreSigned samplePreSigs)]

/-- Other fundings are recorded and another ephemeral is stored. -/
def repointedPath : List (Event Unit) :=
  plannedPath ++
    [sampleCall (.setPricEphemeralR (.replicate 32 9)),
      sampleCall (.setBtcFunded (List.replicate 64 98) 0 1),
      sampleCall (.setPricFunded sampleTxid 0 1)]

/-- The record does not hold the fundings that were planned, nor the ephemeral that it had. -/
theorem funding_repointed :
    (found plannedDecode plainSealing (run plannedDecode plainSealing plannedPath)
        sampleId).map (fun s => (s.state, s.hasPricEphemeralR, s.pricEphemeralR)) =
      some (.preSigned, true, .replicate 32 8) ∧
    (found plannedDecode plainSealing (run plannedDecode plainSealing repointedPath)
        sampleId).map (fun s => (s.state, s.pricEphemeralR)) =
      some (.bothFunded, .replicate 32 9) ∧
    (found plannedDecode plainSealing (run plannedDecode plainSealing repointedPath)
        sampleId).map (fun s => (plannedDecode s.pricFundingUnsignedTxHex, s.pricFundingTxid)) =
      some (some plannedTxid, sampleTxid) ∧
    (found plannedDecode plainSealing (run plannedDecode plainSealing repointedPath)
        sampleId).map (fun s => (s.btcFundingPlannedTxid, s.foreignFundingTxid)) =
      some (List.replicate 64 97, List.replicate 64 98) := by
  refine ⟨?_, ?_, ?_, ?_⟩ <;> decide +kernel

theorem kept_of_asPlanned_restarted :
    ∃ s, found plannedDecode plainSealing (run plannedDecode plainSealing
        (plannedPath ++ [.restart])) sampleId = some s ∧
      ∀ s', found plannedDecode plainSealing (run plannedDecode plainSealing plannedPath)
        sampleId = some s' → Kept s' s := by
  have hevents : Always (step plannedDecode plainSealing) (AsPlanned plannedDecode plainSealing)
      emptyWallet (plannedPath ++ [.restart]) := by
    have hready : Always (step plannedDecode plainSealing)
        (AsPlanned plannedDecode plainSealing) emptyWallet readyPath :=
      ⟨trivial, trivial, trivial, trivial⟩
    have hstate : (found plannedDecode plainSealing (run plannedDecode plainSealing readyPath)
        sampleId).map AdaptorSwap.state = some .adaptorReady := by
      decide +kernel
    obtain ⟨s, hs, hstate⟩ := map_eq_some_iff.mp hstate
    rw [plannedPath, List.append_assoc, Always.append]
    refine ⟨hready, fun s' hs' => ?_, trivial, trivial, trivial, trivial, trivial⟩
    obtain rfl := some.inj (hs.symm.trans hs')
    simp [hstate, rank]
  have hlast : (found plannedDecode plainSealing (run plannedDecode plainSealing
      (plannedPath ++ [.restart])) sampleId).map AdaptorSwap.state = some .preSigned := by
    decide +kernel
  obtain ⟨s, hs, -⟩ := map_eq_some_iff.mp hlast
  refine ⟨s, hs, fun s' hs' => ?_⟩
  have hfirst : (found plannedDecode plainSealing (run plannedDecode plainSealing plannedPath)
      sampleId).map AdaptorSwap.state = some .preSigned := by
    decide +kernel
  obtain ⟨first, hfound, hstate⟩ := map_eq_some_iff.mp hfirst
  obtain rfl := some.inj (hfound.symm.trans hs')
  exact (kept_of_asPlanned plannedDecode plainSealing _ hevents).2 plannedPath [.restart] []
    sampleId first s (List.append_nil _).symm hfound (by simp [hstate, rank]) hs

end Sample

end Pricoin.SwapCeremony
