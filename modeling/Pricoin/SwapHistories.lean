import Mathlib.Logic.Relation
import Pricoin.AdaptorSwaps

/-!
The histories of swap records. What each accepted setter does to a record is said once,
and a run of calls keeps to a table of records in which every record comes from a
created one by such moves, whatever fails and however often the process starts anew.
-/
namespace Pricoin.SwapHistories

open ByteStreams KeyImageFile DurableRecords Checks AdaptorSwaps Runs Option Function

variable {s : AdaptorSwap} {existing : Option AdaptorSwap} {p : AdaptorSwap × AdaptorSwap}
  {nowSec : Int64}

section Moves

/-- The setter's checks pass and it makes the second record of the first. -/
def Accepts (decodeTx : Text → Option Uint256) (t : Transition) (s s' : AdaptorSwap) : Prop :=
  (t.setter decodeTx).check = .ok () ∧ (t.setter decodeTx).mutate s = .ok s'

/-- What the accepted setters do. -/
inductive Move (decodeTx : Text → Option Uint256) (s : AdaptorSwap) :
    Transition → AdaptorSwap → Prop where
  | adaptorMaterials {T_G T_H : Bytes 33} {dleq : List UInt8} {t : Option (Bytes 32)}
      {m : AdaptorSwap} (hstate : s.state = .setup)
      (hsecret : recordSecret t
        { s with T_G := T_G, T_H := T_H, dleqProofBlob := dleq, adaptorSet := true } = .ok m) :
      Move decodeTx s (.setAdaptorMaterials T_G T_H dleq t) (recomputeAdaptorReady m)
  | ephemeralR {r : Bytes 32} (hlive : s.state.terminal = false) :
      Move decodeTx s (.setPricEphemeralR r)
        { s with pricEphemeralR := r, hasPricEphemeralR := true }
  | refundTimelocks {pric foreign delta : Int32} (hstate : s.state = .setup) :
      Move decodeTx s (.setRefundTimelocks pric foreign delta)
        (recomputeAdaptorReady { s with
          pricRefundHeight := pric, foreignRefundHeight := foreign, deltaMinBlocks := delta
          timelocksSet := true })
  | btcFunded {txid : Text} {vout height : Int32} (htxid : txid ≠ []) (hvout : 0 ≤ vout)
      (hheight : 0 < height) (hstate : s.state = .adaptorReady ∨ s.state = .preSigned)
      (hcomplete : s.presigs.isComplete s.foreignChain = true) :
      Move decodeTx s (.setBtcFunded txid vout height) { s with
        foreignFundingTxid := txid, foreignFundingVout := vout, foreignFundingHeight := height
        state := .btcFunded }
  | pricFunded {txid : Uint256} {vout height : Int32} (htxid : txid ≠ nullHash)
      (hvout : 0 ≤ vout) (hheight : 0 < height) (hstate : s.state = .btcFunded) :
      Move decodeTx s (.setPricFunded txid vout height) { s with
        pricFundingTxid := txid, pricFundingVout := vout, pricFundingHeight := height
        state := .bothFunded }
  | preSigned {presigs : AdaptorSwapPreSigs} (hstate : s.state = .adaptorReady)
      (hcomplete : presigs.isComplete s.foreignChain = true) :
      Move decodeTx s (.setPreSigned presigs) { s with presigs := presigs, state := .preSigned }
  | pricClaimed {txid : Uint256} {m : AdaptorSwap} (htxid : txid ≠ nullHash)
      (hstate : s.state = .bothFunded) (hm : m = { s with pricClaimTxid := txid }) :
      Move decodeTx s (.setPricClaimed txid)
        { (if s.role = .bob then wipeSecret m else m) with state := .pricClaimed }
  | sameSecret {t : Bytes 32} (hhas : s.hasT = true) (ht : s.tSecret = t) :
      Move decodeTx s (.setTSecret t) s
  | newSecret {t : Bytes 32} (hhas : s.hasT = false) :
      Move decodeTx s (.setTSecret t) { s with tSecret := t, hasT := true }
  | claimRing {ring ringW ringW' : List (Bytes 33)} {msgHex msgHex' : Text} {pi pi' : Int32}
      {hex hex' : Text} (hring : s.pricClaimRing = [] ∨ s.pricClaimRing = ring)
      (hringW : supply nonempty nonempty ringW s.pricClaimRingW = .ok ringW')
      (hmsgHex : supply nonempty nonempty msgHex s.pricClaimMsgHex = .ok msgHex')
      (hpi : supply (fun i => 0 ≤ i) (fun i => 0 ≤ i) pi s.pricClaimPi = .ok pi')
      (hhex : supply nonempty nonempty hex s.pricClaimUnsignedTxHex = .ok hex') :
      Move decodeTx s (.setPricClaimRing ring ringW msgHex pi hex) { s with
        pricClaimRing := ring, pricClaimRingW := ringW', pricClaimMsgHex := msgHex'
        pricClaimPi := pi', pricClaimUnsignedTxHex := hex' }
  | pricRefundTx {hex : Text} (hlive : s.state.terminal = false)
      (honce : s.pricRefundUnsignedTxHex = [] ∨ s.pricRefundUnsignedTxHex = hex) :
      Move decodeTx s (.setPricRefundTx hex) { s with pricRefundUnsignedTxHex := hex }
  | coopsignSession {leg : CoopsignLeg} {json : Text} (hlive : s.state.terminal = false) :
      Move decodeTx s (.setCoopsignSession leg json)
        (match leg with
          | .pricClaimAdaptor => { s with pricClaimAdaptorSessionJson := json }
          | .pricRefund => { s with pricRefundSessionJson := json }
          | .btcClaimAdaptor => { s with btcClaimAdaptorSessionJson := json }
          | .btcRefund => { s with btcRefundSessionJson := json })
  | btcRefundTx {hex : Text} (hlive : s.state.terminal = false)
      (honce : s.btcRefundUnsignedTxHex = [] ∨ s.btcRefundUnsignedTxHex = hex) :
      Move decodeTx s (.setBtcRefundTx hex) { s with btcRefundUnsignedTxHex := hex }
  | btcClaimTx {hex : Text} (hlive : s.state.terminal = false)
      (honce : s.btcClaimUnsignedTxHex = [] ∨ s.btcClaimUnsignedTxHex = hex) :
      Move decodeTx s (.setBtcClaimTx hex) { s with btcClaimUnsignedTxHex := hex }
  | pricFundingPlanned {hex : Text} {vout : Int32} {txid : Uint256} {m : AdaptorSwap}
      (hvout : 0 ≤ vout) (hdecode : decodeTx hex = some txid)
      (hstate : s.state = .setup ∨ s.state = .adaptorReady ∨ s.state = .preSigned ∨
        s.state = .btcFunded)
      (honce : s.pricFundingUnsignedTxHex = [] ∨
        s.pricFundingUnsignedTxHex = hex ∧ s.pricFundingPlannedVout = vout)
      (hm : m = { s with pricFundingUnsignedTxHex := hex, pricFundingPlannedVout := vout }) :
      Move decodeTx s (.setPricFundingPlanned hex vout)
        (if s.pricFundingTxid = nullHash then
          { m with pricFundingTxid := txid, pricFundingVout := vout } else m)
  | btcFundingPlanned {hex hex' txid : Text} {vout : Int32} (htxid : txid ≠ [])
      (hstate : s.state = .setup ∨ s.state = .adaptorReady ∨ s.state = .preSigned)
      (honce : s.btcFundingPlannedTxid = [] ∨
        s.btcFundingPlannedTxid = txid ∧ s.btcFundingPlannedVout = vout)
      (hhex : supply nonempty nonempty hex s.btcFundingUnsignedTxHex = .ok hex') :
      Move decodeTx s (.setBtcFundingPlanned hex txid vout) { s with
        btcFundingPlannedTxid := txid, btcFundingPlannedVout := vout
        btcFundingUnsignedTxHex := hex' }
  | peerStealthPubkeys {view spend : Text} (hlive : s.state.terminal = false)
      (honce : (s.peerViewPubkeyHex = [] ∧ s.peerSpendPubkeyHex = []) ∨
        (s.peerViewPubkeyHex = view ∧ s.peerSpendPubkeyHex = spend)) :
      Move decodeTx s (.setPeerStealthPubkeys view spend)
        { s with peerViewPubkeyHex := view, peerSpendPubkeyHex := spend }
  | complete {txid : Text} (htxid : txid ≠ []) (hstate : s.state = .pricClaimed) :
      Move decodeTx s (.setComplete txid)
        { s with foreignClaimTxid := txid, state := .complete }
  | refunded {pric : Uint256} {foreign : Text}
      (hstate : s.state = .btcFunded ∨ s.state = .bothFunded ∨ s.state = .pricClaimed) :
      Move decodeTx s (.setRefunded pric foreign) { s with
        pricRefundTxid := if pric = nullHash then s.pricRefundTxid else pric
        foreignRefundTxid := if foreign = [] then s.foreignRefundTxid else foreign
        state := .refunded }
  | abort {reason : Text} {m : AdaptorSwap} (hlive : s.state.terminal = false)
      (hm : m = { s with abortReason := reason }) :
      Move decodeTx s (.abort reason)
        { (if s.hasT then wipeSecret m else m) with state := .aborted }

variable {decodeTx : Text → Option Uint256} {t : Transition} {s s' : AdaptorSwap}

theorem setUnsignedTx_ok {field : AdaptorSwap → Text} {store : Text → AdaptorSwap → AdaptorSwap}
    {hex : Text} (hstore : ∀ s, store (field s) s = s)
    (h : (setUnsignedTx field store hex).mutate s = .ok s') :
    s.state.terminal = false ∧ (field s = [] ∨ field s = hex) ∧ s' = store hex s := by
  simp only [setUnsignedTx, bind_ok, rejectIf_ok] at h
  obtain ⟨_, -, _, hlive, hset⟩ := h
  split_ifs at hset with hempty hsame
  · obtain rfl := pure_ok.mp hset
    exact ⟨by simpa using hlive, .inr hsame, by rw [← hsame, hstore]⟩
  · obtain rfl := pure_ok.mp hset
    exact ⟨by simpa using hlive, .inl (not_not.mp hempty), rfl⟩

/-- An accepted setter makes one of the moves. -/
theorem Accepts.move (h : Accepts decodeTx t s s') : Move decodeTx s t s' := by
  obtain ⟨hcheck, hmutate⟩ := h
  cases t with
  | setAdaptorMaterials T_G T_H dleq secret =>
    simp only [Transition.setter, setAdaptorMaterials, bind_ok, rejectIf_ok, pure_ok,
      not_not] at hmutate
    obtain ⟨_, hstate, m, hm, rfl⟩ := hmutate
    exact .adaptorMaterials hstate hm
  | setPricEphemeralR r =>
    simp only [Transition.setter, setPricEphemeralR, bind_ok, rejectIf_ok, pure_ok,
      Bool.not_eq_true] at hmutate
    obtain ⟨_, hlive, rfl⟩ := hmutate
    exact .ephemeralR hlive
  | setRefundTimelocks pric foreign delta =>
    simp only [Transition.setter, setRefundTimelocks, bind_ok, rejectIf_ok, pure_ok,
      not_not] at hmutate
    obtain ⟨_, hstate, rfl⟩ := hmutate
    exact .refundTimelocks hstate
  | setBtcFunded txid vout height =>
    simp only [Transition.setter, setBtcFunded, bind_ok, rejectIf_ok, pure_ok] at hmutate hcheck
    obtain ⟨_, hstate, _, hcomplete, rfl⟩ := hmutate
    simp only [not_or, Int32.not_lt, Int32.not_le] at hcheck
    exact .btcFunded hcheck.1 hcheck.2.1 hcheck.2.2 (by tauto) (by simpa using hcomplete)
  | setPricFunded txid vout height =>
    simp only [Transition.setter, setPricFunded, bind_ok, rejectIf_ok, pure_ok,
      not_not] at hmutate hcheck
    obtain ⟨_, hstate, rfl⟩ := hmutate
    simp only [not_or, Int32.not_lt, Int32.not_le] at hcheck
    exact .pricFunded hcheck.1 hcheck.2.1 hcheck.2.2 hstate
  | setPreSigned presigs =>
    simp only [Transition.setter, setPreSigned, bind_ok, rejectIf_ok, pure_ok,
      not_not] at hmutate
    obtain ⟨_, hstate, _, hcomplete, _, -, _, -, _, -, rfl⟩ := hmutate
    exact .preSigned hstate (by simpa using hcomplete)
  | setPricClaimed txid =>
    simp only [Transition.setter, setPricClaimed, bind_ok, rejectIf_ok, pure_ok,
      not_not] at hmutate hcheck
    obtain ⟨_, hstate, rfl⟩ := hmutate
    exact .pricClaimed hcheck hstate rfl
  | setTSecret secret =>
    simp only [Transition.setter, setTSecret] at hmutate
    split_ifs at hmutate with hhas hsame
    · obtain rfl := Except.ok.inj hmutate
      exact .sameSecret hhas hsame
    · obtain rfl := Except.ok.inj hmutate
      exact .newSecret (by simpa using hhas)
  | setPricClaimRing ring ringW msgHex pi hex =>
    simp only [Transition.setter, setPricClaimRing, bind_ok, rejectIf_ok, pure_ok] at hmutate
    obtain ⟨_, hring, ringW', hringW, msgHex', hmsgHex, pi', hpi, hex', hhex, rfl⟩ := hmutate
    exact .claimRing (by tauto) hringW hmsgHex hpi hhex
  | setPricRefundTx hex =>
    simp only [Transition.setter, setPricRefundTx] at hmutate
    obtain ⟨hlive, honce, rfl⟩ := setUnsignedTx_ok (fun _ => rfl) hmutate
    exact .pricRefundTx hlive honce
  | setCoopsignSession leg json =>
    simp only [Transition.setter, setCoopsignSession, bind_ok, rejectIf_ok, pure_ok,
      Bool.not_eq_true] at hmutate
    obtain ⟨_, hlive, rfl⟩ := hmutate
    exact .coopsignSession hlive
  | setBtcRefundTx hex =>
    simp only [Transition.setter, setBtcRefundTx] at hmutate
    obtain ⟨hlive, honce, rfl⟩ := setUnsignedTx_ok (fun _ => rfl) hmutate
    exact .btcRefundTx hlive honce
  | setBtcClaimTx hex =>
    simp only [Transition.setter, setBtcClaimTx] at hmutate
    obtain ⟨hlive, honce, rfl⟩ := setUnsignedTx_ok (fun _ => rfl) hmutate
    exact .btcClaimTx hlive honce
  | setPricFundingPlanned hex vout =>
    simp only [Transition.setter, setPricFundingPlanned, bind_ok, rejectIf_ok,
      pure_ok] at hmutate hcheck
    obtain ⟨_, -, _, hvout, hdecode⟩ := hcheck
    obtain ⟨txid, htxid⟩ := ne_none_iff_exists'.mp hdecode
    obtain ⟨_, hstate, _, honce, rfl⟩ := hmutate
    rw [htxid]
    exact .pricFundingPlanned (Int32.not_lt.mp hvout) htxid (by tauto) (by tauto) rfl
  | setBtcFundingPlanned hex txid vout =>
    simp only [Transition.setter, setBtcFundingPlanned, bind_ok, rejectIf_ok,
      pure_ok, not_not] at hmutate hcheck
    obtain ⟨_, -, _, hlength, -⟩ := hcheck
    have htxid : txid ≠ [] := by
      rintro rfl
      cases hlength
    obtain ⟨_, -, _, hstate, _, honce, hex', hhex, rfl⟩ := hmutate
    exact .btcFundingPlanned htxid (by tauto) (by tauto) hhex
  | setPeerStealthPubkeys view spend =>
    simp only [Transition.setter, setPeerStealthPubkeys, bind_ok, rejectIf_ok,
      Bool.not_eq_true] at hmutate
    obtain ⟨_, hlive, hset⟩ := hmutate
    split_ifs at hset with hthere hsame
    · obtain rfl := pure_ok.mp hset
      obtain ⟨rfl, rfl⟩ := hsame
      exact .peerStealthPubkeys hlive (.inr ⟨rfl, rfl⟩)
    · obtain rfl := pure_ok.mp hset
      exact .peerStealthPubkeys hlive (.inl (by tauto))
  | setComplete txid =>
    simp only [Transition.setter, setComplete, bind_ok, rejectIf_ok, pure_ok,
      not_not] at hmutate hcheck
    obtain ⟨_, hstate, rfl⟩ := hmutate
    exact .complete hcheck hstate
  | setRefunded pric foreign =>
    simp only [Transition.setter, setRefunded, bind_ok, rejectIf_ok, pure_ok] at hmutate
    obtain ⟨_, hstate, rfl⟩ := hmutate
    exact .refunded (by tauto)
  | abort reason =>
    simp only [Transition.setter, AdaptorSwaps.abort, bind_ok, rejectIf_ok, pure_ok,
      Bool.not_eq_true] at hmutate
    obtain ⟨_, hlive, rfl⟩ := hmutate
    exact .abort hlive rfl

end Moves

section Refusals

/-- A computation that is refused does not say that it went well. -/
abbrev Honest {α : Type} (x : Except TransitionResult α) : Prop :=
  Ends (fun r => r ≠ .ok) (fun _ => True) x

theorem honest_supply {α : Type} [DecidableEq α] (supplied present : α → Bool) (new old : α) :
    Honest (supply supplied present new old) := by
  unfold supply
  split
  · trivial
  · split
    · exact TransitionResult.noConfusion
    · trivial

theorem honest_recordSecret (t : Option (Bytes 32)) (s : AdaptorSwap) :
    Honest (recordSecret t s) := by
  unfold recordSecret
  split
  · trivial
  · exact TransitionResult.noConfusion
  · exact TransitionResult.noConfusion
  · trivial

theorem honest_setUnsignedTx (field : AdaptorSwap → Text)
    (store : Text → AdaptorSwap → AdaptorSwap) (hex : Text) (s : AdaptorSwap) :
    Honest ((setUnsignedTx field store hex).mutate s) := by
  refine (ends_rejectIf nofun).bind fun _ _ => (ends_rejectIf nofun).bind fun _ _ => ?_
  split
  · split
    · trivial
    · exact TransitionResult.noConfusion
  · trivial

variable (decodeTx : Text → Option Uint256)

theorem honest_check (t : Transition) : Honest (t.setter decodeTx).check := by
  cases t with
  | setAdaptorMaterials => exact ends_rejectIf nofun
  | setRefundTimelocks => exact ends_rejectIf nofun
  | setBtcFunded => exact ends_rejectIf nofun
  | setPricFunded => exact ends_rejectIf nofun
  | setPricClaimed => exact ends_rejectIf nofun
  | setPeerStealthPubkeys => exact ends_rejectIf nofun
  | setComplete => exact ends_rejectIf nofun
  | setRefunded => exact ends_rejectIf nofun
  | setPricRefundTx => exact (ends_rejectIf nofun).bind fun _ _ => ends_rejectIf nofun
  | setBtcRefundTx => exact (ends_rejectIf nofun).bind fun _ _ => ends_rejectIf nofun
  | setBtcClaimTx => exact (ends_rejectIf nofun).bind fun _ _ => ends_rejectIf nofun
  | setPricClaimRing =>
    exact (ends_rejectIf nofun).bind fun _ _ => (ends_rejectIf nofun).bind fun _ _ =>
      ends_rejectIf nofun
  | setPricFundingPlanned =>
    exact (ends_rejectIf nofun).bind fun _ _ => (ends_rejectIf nofun).bind fun _ _ =>
      ends_rejectIf nofun
  | setBtcFundingPlanned =>
    exact (ends_rejectIf nofun).bind fun _ _ => (ends_rejectIf nofun).bind fun _ _ =>
      ends_rejectIf nofun
  | _ => trivial

theorem honest_mutate (t : Transition) (s : AdaptorSwap) :
    Honest ((t.setter decodeTx).mutate s) := by
  cases t with
  | setAdaptorMaterials =>
    exact (ends_rejectIf nofun).bind fun _ _ => (honest_recordSecret _ _).bind fun _ _ => trivial
  | setBtcFunded =>
    exact (ends_rejectIf nofun).bind fun _ _ => (ends_rejectIf nofun).bind fun _ _ => trivial
  | setPreSigned =>
    exact (ends_rejectIf nofun).bind fun _ _ => (ends_rejectIf nofun).bind fun _ _ =>
      (ends_rejectIf nofun).bind fun _ _ => (ends_rejectIf nofun).bind fun _ _ =>
      (ends_rejectIf nofun).bind fun _ _ => trivial
  | setTSecret =>
    simp only [Transition.setter, setTSecret]
    split
    · split
      · trivial
      · exact TransitionResult.noConfusion
    · trivial
  | setPricClaimRing =>
    exact (ends_rejectIf nofun).bind fun _ _ => (honest_supply _ _ _ _).bind fun _ _ =>
      (honest_supply _ _ _ _).bind fun _ _ => (honest_supply _ _ _ _).bind fun _ _ =>
      (honest_supply _ _ _ _).bind fun _ _ => trivial
  | setPricRefundTx =>
    simp only [Transition.setter, setPricRefundTx]
    exact honest_setUnsignedTx _ _ _ _
  | setBtcRefundTx =>
    simp only [Transition.setter, setBtcRefundTx]
    exact honest_setUnsignedTx _ _ _ _
  | setBtcClaimTx =>
    simp only [Transition.setter, setBtcClaimTx]
    exact honest_setUnsignedTx _ _ _ _
  | setPricFundingPlanned =>
    exact (ends_rejectIf nofun).bind fun _ _ => (ends_rejectIf nofun).bind fun _ _ => trivial
  | setBtcFundingPlanned =>
    exact (ends_rejectIf nofun).bind fun _ _ => (ends_rejectIf nofun).bind fun _ _ =>
      (ends_rejectIf nofun).bind fun _ _ => (honest_supply _ _ _ _).bind fun _ _ => trivial
  | setPeerStealthPubkeys =>
    refine (ends_rejectIf nofun).bind fun _ _ => ?_
    split
    · split
      · trivial
      · exact TransitionResult.noConfusion
    · trivial
  | _ => exact (ends_rejectIf nofun).bind fun _ _ => trivial

end Refusals

section Records

variable (decodeTx : Text → Option Uint256)

/-- What an accepted call makes of a record. -/
def Step (s s' : AdaptorSwap) : Prop :=
  ∃ t m nowSec, Accepts decodeTx t s m ∧ s' = { m with updatedTime := nowSec }

/-- The second record comes from the first by accepted calls. -/
def Later : AdaptorSwap → AdaptorSwap → Prop := Relation.ReflTransGen (Step decodeTx)

/-- The record was created and has come here by accepted calls. -/
def Reached (s : AdaptorSwap) : Prop :=
  ∃ nowSec swapId counterpartyPub args,
    Later decodeTx (newSwap nowSec swapId counterpartyPub args) s

/-- The id of a planned funding transaction is noted. -/
def Pinned (s : AdaptorSwap) : Prop :=
  s.pricFundingUnsignedTxHex ≠ [] → s.pricFundingTxid = nullHash →
    decodeTx s.pricFundingUnsignedTxHex = some nullHash ∧ 0 ≤ s.pricFundingVout

variable {decodeTx}

theorem Pinned.backFill (h : Pinned decodeTx s) : backFill decodeTx s = s := by
  unfold AdaptorSwaps.backFill
  split
  · rename_i hfill
    obtain ⟨hdecode, hvout⟩ := h hfill.1 hfill.2
    have hset : ¬ (s.pricFundingVout < 0 ∧ 0 ≤ s.pricFundingPlannedVout) :=
      fun hneg => Int32.not_lt.mpr hvout hneg.1
    rw [hdecode]
    simp only [hset, if_false]
    rw [← hfill.2]
  · rfl

/-- What a property of records has to be checked on: a created record, the moves, and the time of
the last change. -/
structure Inductive (decodeTx : Text → Option Uint256) (P : AdaptorSwap → Prop) : Prop where
  new : ∀ nowSec swapId counterpartyPub args, P (newSwap nowSec swapId counterpartyPub args)
  move : ∀ s t s', P s → Move decodeTx s t s' → P s'
  stamp : ∀ s nowSec, P s → P { s with updatedTime := nowSec }

theorem Inductive.step {P : AdaptorSwap → Prop} (h : Inductive decodeTx P)
    {s s' : AdaptorSwap} (hs : P s) (hstep : Step decodeTx s s') : P s' := by
  obtain ⟨t, m, nowSec, haccepts, rfl⟩ := hstep
  exact h.stamp m nowSec (h.move s t m hs haccepts.move)

theorem Inductive.reached {P : AdaptorSwap → Prop} (h : Inductive decodeTx P)
    {s : AdaptorSwap} (hs : Reached decodeTx s) : P s := by
  obtain ⟨nowSec, swapId, counterpartyPub, args, hlater⟩ := hs
  induction hlater with
  | refl => exact h.new nowSec swapId counterpartyPub args
  | tail _ hstep ih => exact h.step ih hstep

theorem recomputeAdaptorReady_cases (s : AdaptorSwap) :
    recomputeAdaptorReady s = s ∨
      s.state = .setup ∧ s.adaptorSet = true ∧ s.timelocksSet = true ∧
        validateRefundTimelocks s.pricRefundHeight s.foreignRefundHeight s.deltaMinBlocks = .ok ∧
        recomputeAdaptorReady s = { s with state := .adaptorReady } := by
  unfold recomputeAdaptorReady
  split_ifs with hstate hset hlocks hvalid
  · exact .inl rfl
  · exact .inl rfl
  · exact .inl rfl
  · exact .inl rfl
  · exact .inr ⟨not_not.mp hstate, by simpa using hset, by simpa using hlocks,
      not_not.mp hvalid, rfl⟩

theorem recordSecret_cases {t : Option (Bytes 32)} {m : AdaptorSwap}
    (h : recordSecret t s = .ok m) :
    (s.role = .alice ∧ m = s) ∨
      ∃ secret, s.role = .bob ∧ m = { s with tSecret := secret, hasT := true } := by
  unfold recordSecret at h
  split at h
  · rename_i secret hrole
    exact .inr ⟨secret, hrole, (Except.ok.inj h).symm⟩
  · cases h
  · cases h
  · rename_i hrole
    exact .inl ⟨hrole, (Except.ok.inj h).symm⟩

/-- What no call changes. -/
structure SameSwap (s s' : AdaptorSwap) : Prop where
  swapId : s'.swapId = s.swapId
  role : s'.role = s.role
  foreignChain : s'.foreignChain = s.foreignChain

theorem sameSwap_recomputeAdaptorReady (s : AdaptorSwap) :
    SameSwap s (recomputeAdaptorReady s) := by
  rcases recomputeAdaptorReady_cases s with heq | ⟨-, -, -, -, heq⟩
  · rw [heq]
    exact ⟨rfl, rfl, rfl⟩
  · rw [heq]
    exact ⟨rfl, rfl, rfl⟩

theorem Move.sameSwap {t : Transition} {s' : AdaptorSwap} (h : Move decodeTx s t s') :
    SameSwap s s' := by
  cases h with
  | adaptorMaterials hstate hsecret =>
    rcases recordSecret_cases hsecret with ⟨-, rfl⟩ | ⟨secret, -, rfl⟩
    · obtain ⟨h₁, h₂, h₃⟩ := sameSwap_recomputeAdaptorReady _
      exact ⟨h₁, h₂, h₃⟩
    · obtain ⟨h₁, h₂, h₃⟩ := sameSwap_recomputeAdaptorReady _
      exact ⟨h₁, h₂, h₃⟩
  | refundTimelocks =>
    obtain ⟨h₁, h₂, h₃⟩ := sameSwap_recomputeAdaptorReady _
    exact ⟨h₁, h₂, h₃⟩
  | pricClaimed _ _ hm => subst hm; split <;> exact ⟨rfl, rfl, rfl⟩
  | coopsignSession => split <;> exact ⟨rfl, rfl, rfl⟩
  | pricFundingPlanned _ _ _ _ hm => subst hm; split <;> exact ⟨rfl, rfl, rfl⟩
  | abort _ hm => subst hm; split <;> exact ⟨rfl, rfl, rfl⟩
  | _ => exact ⟨rfl, rfl, rfl⟩

theorem inductive_pinned : Inductive decodeTx (Pinned decodeTx) where
  new _ _ _ _ := fun hhex => absurd rfl hhex
  stamp _ _ h := h
  move s t s' h hmove := by
    cases hmove with
    | adaptorMaterials hstate hsecret =>
      rcases recordSecret_cases hsecret with ⟨-, rfl⟩ | ⟨secret, -, rfl⟩
      · rcases recomputeAdaptorReady_cases _ with heq | ⟨-, -, -, -, heq⟩ <;> rw [heq] <;> exact h
      · rcases recomputeAdaptorReady_cases _ with heq | ⟨-, -, -, -, heq⟩ <;> rw [heq] <;> exact h
    | refundTimelocks =>
      rcases recomputeAdaptorReady_cases _ with heq | ⟨-, -, -, -, heq⟩ <;> rw [heq] <;> exact h
    | pricFunded htxid => exact fun _ hnull => absurd hnull htxid
    | pricClaimed _ _ hm => subst hm; split <;> exact h
    | coopsignSession => split <;> exact h
    | pricFundingPlanned hvout hdecode _ _ hm =>
      subst hm
      split
      · exact fun _ hnull => ⟨by rw [hdecode]; exact congrArg some hnull, hvout⟩
      · rename_i hset
        exact fun _ hnull => absurd hnull hset
    | abort _ hm => subst hm; split <;> exact h
    | _ => exact h

end Records

section Runs

variable {ι : Type} (decodeTx : Text → Option Uint256)

abbrev Table := Uint256 → Option AdaptorSwap

/-- A record was returned as created, or a setter was accepted. -/
def Went : Reply → Prop
  | .create (some (.ok _)) => True
  | .call (some .ok) => True
  | _ => False

/-- What an event does to the table of records: a record is created or found to exist, a setter is
accepted for the record that is in view, or nothing changes. -/
inductive Effect (view table : Table) : Event ι → Reply → Table → Prop where
  | created {env : Env ι} {args : CreateArgs} {counterpartyPub : Bytes 33} {new : AdaptorSwap}
      (hnew : new = newSwap env.nowSec (args.swapId env.randomId) counterpartyPub args)
      (hfree : table new.swapId = none) :
      Effect view table (.create env args) (.create (some (.ok new)))
        (Function.update table new.swapId (some new))
  | existed {env : Env ι} {args : CreateArgs} {s : AdaptorSwap}
      (hs : table (args.swapId env.randomId) = some s) :
      Effect view table (.create env args) (.create (some (.ok s))) table
  | moved {env : Env ι} {swapId : Uint256} {t : Transition} {s m : AdaptorSwap}
      (hview : view swapId = some s) (hs : table swapId = some s)
      (haccepts : Accepts decodeTx t s m) :
      Effect view table (.call env swapId t) (.call (some .ok))
        (Function.update table swapId (some { m with updatedTime := env.nowSec }))
  | kept {event : Event ι} {reply : Reply} (hreply : ¬ Went reply) :
      Effect view table event reply table

/-- What a call finds under an id, in memory or by loading it. -/
abbrev found (decodeTx : Text → Option Uint256) (seals : Sealing ι) (c : Wallet) : Table :=
  recorded (format decodeTx) seals c

/-- Every record of the table has come about by accepted calls. -/
def AllReached (table : Table) : Prop :=
  ∀ swapId s, table swapId = some s → Reached decodeTx s

/-- Every record of the first table has a later one in the second. -/
def Follows (table table' : Table) : Prop :=
  ∀ swapId s, table swapId = some s → ∃ s', table' swapId = some s' ∧ Later decodeTx s s'

variable {decodeTx} {seals : Sealing ι} {table table' : Table} {c : Wallet}

theorem AllReached.stable (h : AllReached decodeTx table) :
    Stable (format decodeTx) table :=
  fun swapId s hs => (inductive_pinned.reached (h swapId s hs)).backFill

theorem createChange_same {new : AdaptorSwap} (h : createChange new existing = .ok p) :
    p.1 = p.2 := by
  cases existing with
  | none => rw [← Except.ok.inj h]
  | some s => contradiction

theorem effect_create (h : Coherent (format decodeTx) seals table c)
    (hreached : AllReached decodeTx table) (env : Env ι) (args : CreateArgs) :
    ∃ table', Effect decodeTx (found decodeTx seals c) table (.create env args)
      (.create (create decodeTx seals env args c).1) table' ∧
      Coherent (format decodeTx) seals table' (create decodeTx seals env args c).2 := by
  unfold create
  split
  · exact ⟨table, .kept id, h⟩
  split_ifs
  · exact ⟨table, .kept id, h⟩
  · exact ⟨table, .kept id, h⟩
  rename_i counterpartyPub _ _ _
  simp only
  generalize hnew : newSwap env.nowSec (args.swapId env.randomId) counterpartyPub args = new
  generalize hamend : amend (format decodeTx) seals env.toConditions new.swapId _ c = result
  obtain ⟨outcome, c'⟩ := result
  have hswapId : new.swapId = args.swapId env.randomId := by rw [← hnew]; rfl
  rcases h.amend (fun _ _ => createChange_same) hamend with
    ⟨existing, record, rfl, hshown, -, hchange, hc'⟩ | ⟨hne, hc', hrefused⟩
  · rw [hshown.eq hreached.stable] at hchange
    cases hold : table new.swapId with
    | some s =>
      rw [hold] at hchange
      contradiction
    | none =>
      rw [hold] at hchange
      obtain rfl := (Prod.mk.inj (Except.ok.inj hchange)).1
      exact ⟨_, .created hnew.symm hold, hc'⟩
  · by_cases hok : ∃ s, outcome = .refused (.ok s)
    · obtain ⟨s, rfl⟩ := hok
      obtain ⟨existing, hshown, -, herror⟩ := hrefused _ rfl
      rw [hshown.eq hreached.stable] at herror
      cases hold : table new.swapId with
      | none =>
        rw [hold] at herror
        contradiction
      | some s' =>
        rw [hold] at herror
        obtain rfl := CreateResult.ok.inj (Except.error.inj herror)
        exact ⟨table, .existed (hswapId ▸ hold), hc'⟩
    · refine ⟨table, .kept ?_, hc'⟩
      cases outcome with
      | written => exact absurd rfl hne
      | refused r =>
        cases r with
        | ok s => exact absurd ⟨s, rfl⟩ hok
        | _ => exact id
      | _ => exact id

theorem setterChange_ok {setter : Setter} (h : setterChange nowSec setter existing = .ok p) :
    ∃ s m, existing = some s ∧ setter.mutate s = .ok m ∧
      p = ({ m with updatedTime := nowSec }, { m with updatedTime := nowSec }) := by
  cases existing with
  | none => contradiction
  | some s =>
    simp only [setterChange] at h
    split at h
    · contradiction
    · rename_i m hm
      exact ⟨s, m, rfl, hm, (Except.ok.inj h).symm⟩

theorem setterChange_same {setter : Setter} (h : setterChange nowSec setter existing = .ok p) :
    p.1 = p.2 := by
  obtain ⟨s, m, -, -, rfl⟩ := setterChange_ok h
  rfl

theorem setterChange_error {t : Transition} {r : TransitionResult}
    (h : setterChange nowSec (t.setter decodeTx) existing = .error r) : r ≠ .ok := by
  cases existing with
  | none => exact Except.error.inj h ▸ nofun
  | some s =>
    have hhonest := honest_mutate decodeTx t s
    simp only [setterChange] at h
    split at h
    · rename_i r' hr'
      rw [hr'] at hhonest
      exact Except.error.inj h ▸ hhonest
    · contradiction

theorem effect_call (h : Coherent (format decodeTx) seals table c)
    (hreached : AllReached decodeTx table) (env : Env ι) (swapId : Uint256) (t : Transition) :
    ∃ table', Effect decodeTx (found decodeTx seals c) table (.call env swapId t)
      (.call (call decodeTx seals env swapId t c).1) table' ∧
      Coherent (format decodeTx) seals table' (call decodeTx seals env swapId t c).2 := by
  unfold call
  split
  · rename_i r hr
    have hhonest := honest_check decodeTx t
    rw [hr] at hhonest
    refine ⟨table, .kept ?_, h⟩
    cases r with
    | ok => exact absurd rfl hhonest
    | _ => exact id
  · rename_i hcheck
    unfold mutateAndPersist
    simp only
    generalize hamend : amend (format decodeTx) seals env.toConditions swapId _ c = result
    obtain ⟨outcome, c'⟩ := result
    rcases h.amend (fun _ _ => setterChange_same) hamend with
      ⟨existing, record, rfl, hshown, hview, hchange, hc'⟩ | ⟨hne, hc', hrefused⟩
    · obtain ⟨s, m, rfl, hm, hp⟩ := setterChange_ok hchange
      obtain rfl := (Prod.mk.inj hp).1
      have hs : table swapId = some s := (hshown.eq hreached.stable).symm
      have hkey : (format decodeTx).keyOf { m with updatedTime := env.nowSec } = swapId := by
        exact (Accepts.move ⟨hcheck, hm⟩).sameSwap.swapId.trans (h.keyed swapId s hs)
      refine ⟨_, .moved hview hs ⟨hcheck, hm⟩, ?_⟩
      rw [← hkey]
      exact hc'
    · refine ⟨table, .kept ?_, hc'⟩
      cases outcome with
      | written => exact absurd rfl hne
      | refused r =>
        obtain ⟨existing, -, -, herror⟩ := hrefused r rfl
        have hr := setterChange_error herror
        cases r with
        | ok => exact absurd rfl hr
        | _ => exact id
      | _ => exact id

theorem coherent_lookup {α : Type} (view : (Uint256 → Option AdaptorSwap) → LookupResult α)
    (h : Coherent (format decodeTx) seals table c) (env : Env ι) :
    Coherent (format decodeTx) seals table (lookup decodeTx seals env view c).2 := by
  unfold lookup
  split
  · exact h
  · generalize hload : ensureLoaded (format decodeTx) seals env.toConditions c = result
    obtain ⟨loading, c'⟩ := result
    have hc' := (h.ensureLoaded hload).1
    cases loading <;> exact hc'

theorem coherent_loadFromDB (h : Coherent (format decodeTx) seals table c) (env : Env ι) :
    Coherent (format decodeTx) seals table (loadFromDB decodeTx seals env c).2 := by
  unfold loadFromDB
  split
  · exact h
  · generalize hload : ensureLoaded (format decodeTx) seals env.toConditions c = result
    obtain ⟨loading, c'⟩ := result
    have hc' := (h.ensureLoaded hload).1
    cases loading <;> exact hc'

/-- Every event has an effect on the table, and the wallet keeps to the table. -/
theorem effect_perform (h : Coherent (format decodeTx) seals table c)
    (hreached : AllReached decodeTx table) (event : Event ι) :
    ∃ table', Effect decodeTx (found decodeTx seals c) table event
      (reply decodeTx seals c event) table' ∧
      Coherent (format decodeTx) seals table' (step decodeTx seals c event) := by
  cases event with
  | create env args => exact effect_create h hreached env args
  | call env swapId t => exact effect_call h hreached env swapId t
  | get env swapId =>
    refine ⟨table, .kept id, ?_⟩
    change Coherent _ seals table (get decodeTx seals env swapId c).2
    exact coherent_lookup _ h env
  | list env =>
    refine ⟨table, .kept id, ?_⟩
    exact coherent_lookup _ h env
  | loadFromDB env => exact ⟨table, .kept id, coherent_loadFromDB h env⟩
  | restart => exact ⟨table, .kept id, h.restart⟩

theorem Follows.refl (table : Table) : Follows decodeTx table table :=
  fun _ s hs => ⟨s, hs, .refl⟩

theorem Follows.trans {table'' : Table} (h : Follows decodeTx table table')
    (h' : Follows decodeTx table' table'') : Follows decodeTx table table'' := by
  intro swapId s hs
  obtain ⟨s', hs', hlater⟩ := h swapId s hs
  obtain ⟨s'', hs'', hlater'⟩ := h' swapId s' hs'
  exact ⟨s'', hs'', hlater.trans hlater'⟩

variable {view : Table} {event : Event ι} {reply : Reply}

theorem Effect.follows (h : Effect decodeTx view table event reply table') :
    Follows decodeTx table table' := by
  intro swapId s hs
  cases h with
  | created hnew hfree =>
    have hne : swapId ≠ _ := fun heq => absurd (heq ▸ hs) (by rw [hfree]; exact nofun)
    exact ⟨s, by rw [update_of_ne hne, hs], .refl⟩
  | existed => exact ⟨s, hs, .refl⟩
  | @moved env swapId' t s₀ m hview hs₀ haccepts =>
    by_cases hid : swapId = swapId'
    · subst hid
      obtain rfl := some.inj (hs.symm.trans hs₀)
      exact ⟨_, update_self .., .single ⟨t, m, env.nowSec, haccepts, rfl⟩⟩
    · exact ⟨s, by rw [update_of_ne hid, hs], .refl⟩
  | kept => exact ⟨s, hs, .refl⟩

/-- A property of all records has to be checked on a created one and on the accepted setters. -/
theorem Effect.forall_record {P : AdaptorSwap → Prop}
    (h : Effect decodeTx view table event reply table')
    (hnew : ∀ nowSec swapId counterpartyPub args, P (newSwap nowSec swapId counterpartyPub args))
    (hmove : ∀ env swapId t s m, event = .call env swapId t → view swapId = some s →
      table swapId = some s → Accepts decodeTx t s m → P s →
      P { m with updatedTime := env.nowSec })
    (hall : ∀ swapId s, table swapId = some s → P s) :
    ∀ swapId s, table' swapId = some s → P s := by
  intro swapId s hs
  cases h with
  | @created env args counterpartyPub new hcreated hfree =>
    by_cases hid : swapId = new.swapId
    · rw [hid, update_self, some.injEq] at hs
      rw [← hs, hcreated]
      exact hnew _ _ _ _
    · rw [update_of_ne hid] at hs
      exact hall swapId s hs
  | existed => exact hall swapId s hs
  | @moved env swapId' t s₀ m hview hs₀ haccepts =>
    by_cases hid : swapId = swapId'
    · rw [hid, update_self, some.injEq] at hs
      rw [← hs]
      exact hmove env swapId' t s₀ m rfl hview hs₀ haccepts (hall swapId' s₀ hs₀)
    · rw [update_of_ne hid] at hs
      exact hall swapId s hs
  | kept => exact hall swapId s hs

/-- A record with the property is under the id. -/
def HoldsAt (swapId : Uint256) (P : AdaptorSwap → Prop) (table : Table) : Prop :=
  ∃ s, table swapId = some s ∧ P s

/-- A property of one record has to be checked on the setters accepted for it. -/
theorem Effect.holdsAt {P : AdaptorSwap → Prop} {swapId : Uint256}
    (h : Effect decodeTx view table event reply table')
    (hmove : ∀ env t s m, event = .call env swapId t → view swapId = some s →
      Accepts decodeTx t s m → P s → P { m with updatedTime := env.nowSec })
    (hs : HoldsAt swapId P table) : HoldsAt swapId P table' := by
  obtain ⟨s, hs, hP⟩ := hs
  cases h with
  | @created env args counterpartyPub new hnew hfree =>
    have hne : swapId ≠ new.swapId := by
      rintro rfl
      rw [hfree] at hs
      cases hs
    exact ⟨s, by rw [update_of_ne hne, hs], hP⟩
  | existed => exact ⟨s, hs, hP⟩
  | kept => exact ⟨s, hs, hP⟩
  | @moved env swapId' t s₀ m hview hs₀ haccepts =>
    by_cases hid : swapId = swapId'
    · subst hid
      obtain rfl := some.inj (hs.symm.trans hs₀)
      exact ⟨_, update_self .., hmove env t s m rfl hview haccepts hP⟩
    · exact ⟨s, by rw [update_of_ne hid, hs], hP⟩

theorem Effect.allReached (h : Effect decodeTx view table event reply table')
    (hreached : AllReached decodeTx table) : AllReached decodeTx table' := by
  refine h.forall_record (fun _ _ _ _ => ⟨_, _, _, _, .refl⟩) ?_ hreached
  rintro env swapId t s m - - - haccepts ⟨nowSec, swapId₀, counterpartyPub, args, hlater⟩
  exact ⟨nowSec, swapId₀, counterpartyPub, args, hlater.tail ⟨t, m, env.nowSec, haccepts, rfl⟩⟩

/-- The wallet keeps to a table of records that have come about by accepted calls. -/
structure KeepsTo (decodeTx : Text → Option Uint256) (seals : Sealing ι) (c : Wallet)
    (table : Table) : Prop where
  coherent : Coherent (format decodeTx) seals table c
  reached : AllReached decodeTx table

theorem keepsTo_step (h : KeepsTo decodeTx seals c table) (event : Event ι) :
    ∃ table', Effect decodeTx (found decodeTx seals c) table event
      (AdaptorSwaps.reply decodeTx seals c event) table' ∧
      KeepsTo decodeTx seals (step decodeTx seals c event) table' := by
  obtain ⟨table', heffect, hc'⟩ := effect_perform h.coherent h.reached event
  exact ⟨table', heffect, hc', heffect.allReached h.reached⟩

/-- What the admitted events preserve of the table holds after a run of such events. -/
theorem keepsTo_always {admitted : Wallet → Event ι → Prop} (Inv : Table → Prop)
    (hstep : ∀ c event table table', KeepsTo decodeTx seals c table → admitted c event →
      Effect decodeTx (found decodeTx seals c) table event
        (AdaptorSwaps.reply decodeTx seals c event) table' → Inv table → Inv table')
    {events : List (Event ι)} {c : Wallet} {table : Table}
    (hevents : Always (step decodeTx seals) admitted c events)
    (h : KeepsTo decodeTx seals c table) (hinv : Inv table) :
    ∃ table', KeepsTo decodeTx seals (events.foldl (step decodeTx seals) c) table' ∧
      Inv table' := by
  have hkept : ∀ c event, admitted c event →
      (∃ table, KeepsTo decodeTx seals c table ∧ Inv table) →
      ∃ table, KeepsTo decodeTx seals (step decodeTx seals c event) table ∧ Inv table := by
    rintro c event hadmitted ⟨table, h, hinv⟩
    obtain ⟨table', heffect, h'⟩ := keepsTo_step h event
    exact ⟨table', h', hstep c event table table' h hadmitted heffect hinv⟩
  exact hevents.invariant hkept ⟨table, h, hinv⟩

/-- A run keeps to a table that follows the one before. -/
theorem keepsTo_foldl (events : List (Event ι)) (h : KeepsTo decodeTx seals c table) :
    ∃ table', KeepsTo decodeTx seals (events.foldl (step decodeTx seals) c) table' ∧
      Follows decodeTx table table' := by
  have hall : Always (step decodeTx seals) (fun _ _ => True) c events :=
    always_of_forall (fun _ _ => trivial) events
  refine keepsTo_always (Follows decodeTx table) ?_ hall h (.refl table)
  exact fun _ _ _ _ _ _ heffect hfollows => hfollows.trans heffect.follows

/-- The wallet before the first event. -/
abbrev emptyWallet : Wallet := ⟨[], fun _ => none, false⟩

theorem keepsTo_empty (decodeTx : Text → Option Uint256) (seals : Sealing ι) :
    KeepsTo decodeTx seals emptyWallet fun _ => none :=
  ⟨coherent_empty, fun _ _ hs => by cases hs⟩

theorem keepsTo_run (decodeTx : Text → Option Uint256) (seals : Sealing ι)
    (events : List (Event ι)) :
    ∃ table, KeepsTo decodeTx seals (run decodeTx seals events) table := by
  obtain ⟨table, htable, -⟩ := keepsTo_foldl events (keepsTo_empty decodeTx seals)
  exact ⟨table, htable⟩

theorem KeepsTo.table_of_found {swapId : Uint256} (h : KeepsTo decodeTx seals c table)
    (hs : found decodeTx seals c swapId = some s) : table swapId = some s :=
  h.coherent.table_of_recorded h.reached.stable hs

/-- A record that is found has come about by accepted calls. -/
theorem reached_of_found {events : List (Event ι)} {swapId : Uint256}
    (hs : found decodeTx seals (run decodeTx seals events) swapId = some s) :
    Reached decodeTx s := by
  obtain ⟨table, htable⟩ := keepsTo_run decodeTx seals events
  exact htable.reached swapId s (htable.table_of_found hs)

/-- A record that is found after another comes from it by accepted calls. -/
theorem later_of_found {pre post : List (Event ι)} {swapId : Uint256} {s' : AdaptorSwap}
    (hs : found decodeTx seals (run decodeTx seals pre) swapId = some s)
    (hs' : found decodeTx seals (run decodeTx seals (pre ++ post)) swapId = some s') :
    Later decodeTx s s' := by
  obtain ⟨table, htable⟩ := keepsTo_run decodeTx seals pre
  obtain ⟨table', htable', hfollows⟩ := keepsTo_foldl post htable
  rw [AdaptorSwaps.run, List.foldl_append] at hs'
  obtain ⟨s'', hs'', hlater⟩ := hfollows swapId s (htable.table_of_found hs)
  obtain rfl := some.inj (hs''.symm.trans (htable'.table_of_found hs'))
  exact hlater

end Runs

end Pricoin.SwapHistories
