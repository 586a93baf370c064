import Pricoin.AdaptorSig
import Pricoin.SwapStore

/-!
The scan of a transaction for the claim of a swap's coin. Alice's wallet takes the
adaptor secret from the signature on chain and the pre-signature of the record. It does
so from the state on in which both coins are locked, and it compares the secret with the
points of the pre-signature, not with those of the record.
-/
namespace Pricoin.ClaimScan

open ByteStreams KeyImageFile Codecs Transactions CurveBytes CurveBytes.Secp256k1 RingSig
open List Option
open AdaptorSig DurableRecords AdaptorSwaps SwapHistories SwapStore SwapSafety

variable {F E : Type} [Field F] [AddCommGroup E] [Module F E] [DecidableEq F] [DecidableEq E]
  {ι : Type} {s : AdaptorSwap} {tx : Transaction} {t : Scalar}

section Code

def dleqProofCodec : Codec DLEQProof :=
  ((Codec.block 33).pair ((Codec.block 33).pair (Codec.block 32))).via
    (fun p => (p.AG, p.AH, p.z)) (fun p => ⟨p.1, p.2.1, p.2.2⟩)

def adaptorPreSignatureCodec : Codec AdaptorPreSignature :=
  ((signatureCodec maxSize).pair ((Codec.block 33).pair ((Codec.block 33).pair
    (dleqProofCodec.pair (Codec.uint 4))))).via
      (fun p => (p.signature, p.adaptor.TG, p.adaptor.TH, p.dleq, p.pi.toNat))
      (fun p => ⟨p.1.keyImage, p.1.commitmentImage, p.1.c0, p.1.s, ⟨p.2.1, p.2.2.1⟩, p.2.2.2.1,
        UInt32.ofNat p.2.2.2.2⟩)

structure PricoinSwapClaimRecovery where
  swapId : Uint256
  tRecovered : Scalar
  deriving DecidableEq

/-- The funding of the swap is in the ring. -/
def coversFunding (s : AdaptorSwap) (ri : CTRingInput) : Bool :=
  ri.ring.any fun po => po.hash = s.pricFundingTxid ∧ po.n.toInt32 = s.pricFundingVout

/-- The swaps that the scan looks at. -/
def awaitsClaim (s : AdaptorSwap) : Bool :=
  s.role = .alice ∧ s.hasT = false ∧ (s.state = .bothFunded ∨ s.state = .pricClaimed) ∧
    s.pricClaimRing ≠ [] ∧ s.presigs.pricClaimPresigBlob ≠ [] ∧
    ¬ (s.pricFundingTxid = nullHash ∨ s.pricFundingVout < 0)

variable (curve : Secp256k1 F E)

def recoverFrom (s : AdaptorSwap) (ri : CTRingInput) : Option PricoinSwapClaimRecovery :=
  if coversFunding s ri then do
    let (presig, _) ← adaptorPreSignatureCodec.read s.presigs.pricClaimPresigBlob
    let t ← extract curve s.pricClaimRing presig ri.sig
    return ⟨s.swapId, t⟩
  else none

/-- The first ring input that gives a secret ends the search for a swap. -/
def scanSwap (tx : Transaction) (s : AdaptorSwap) : Option PricoinSwapClaimRecovery :=
  if awaitsClaim s then tx.ctBundle.ringInputs.findSome? (recoverFrom curve s) else none

variable (decodeTx : Text → Option Uint256) (seals : Sealing ι)

/-- Nothing comes of the scan when the swaps cannot be listed. -/
def scanTxForSwapClaim (env : Env ι) (order : List Uint256) (tx : Transaction) (c : Wallet) :
    List PricoinSwapClaimRecovery × Wallet :=
  if tx.version ≠ pricoinCTVersion then ([], c)
  else if tx.ctBundle.ringInputs = [] then ([], c)
  else match list decodeTx seals env c with
    | (some (.ok records), c) => ((order.filterMap records).filterMap (scanSwap curve tx), c)
    | (_, c) => ([], c)

end Code

section Statement

/-- Alice does not have the secret, the foreign coin is locked, and what the claim is recognised by
is in the record. -/
structure Recorded (s : AdaptorSwap) (presig : AdaptorPreSignature) : Prop where
  alice : s.role = .alice
  secret : s.hasT = false
  locked : s.state = .btcFunded ∨ s.state = .bothFunded ∨ s.state = .pricClaimed
  ring : s.pricClaimRing ≠ []
  presig : ∃ rest, adaptorPreSignatureCodec.read s.presigs.pricClaimPresigBlob = some (presig, rest)
  outpoint : s.pricFundingTxid ≠ nullHash ∧ 0 ≤ s.pricFundingVout

/-- The transaction spends the funding with the pre-signature adapted by the secret. -/
structure Claims (curve : Secp256k1 F E) (tx : Transaction) (s : AdaptorSwap)
    (presig : AdaptorPreSignature) (t : Scalar) : Prop where
  version : tx.version = pricoinCTVersion
  points : ∃ P, s.pricClaimRing[presig.pi.toNat]? = some P ∧
    computeAdaptorPoints curve t P = some presig.adaptor
  input : ∃ ri ∈ tx.ctBundle.ringInputs, coversFunding s ri = true ∧
    ∃ pre u, presig.s[presig.pi.toNat]? = some pre ∧ curve.seckeyTweakAdd pre t = some u ∧
      ri.sig = presig.adapted u

end Statement

section Records

variable {curve : Secp256k1 F E} {presig : AdaptorPreSignature}
variable {ri : CTRingInput} {rec : PricoinSwapClaimRecovery}

omit [DecidableEq E] in
theorem recoverFrom_eq_some :
    recoverFrom curve s ri = some rec ↔ coversFunding s ri = true ∧ rec.swapId = s.swapId ∧
      ∃ presig rest,
        adaptorPreSignatureCodec.read s.presigs.pricClaimPresigBlob = some (presig, rest) ∧
        extract curve s.pricClaimRing presig ri.sig = some rec.tRecovered := by
  unfold recoverFrom
  constructor
  · intro h
    split at h
    · rename_i hcovers
      obtain ⟨⟨presig, rest⟩, hread, h⟩ := bind_eq_some_iff.mp h
      obtain ⟨t, ht, h⟩ := bind_eq_some_iff.mp h
      obtain rfl := some.inj h
      exact ⟨hcovers, rfl, presig, rest, hread, ht⟩
    · cases h
  · rintro ⟨hcovers, hid, presig, rest, hread, ht⟩
    rw [if_pos hcovers]
    refine bind_eq_some_iff.mpr ⟨(presig, rest), hread, ?_⟩
    refine bind_eq_some_iff.mpr ⟨rec.tRecovered, ht, ?_⟩
    rw [← hid]
    rfl

omit [DecidableEq E] in
/-- What is extracted is the logarithm of the point in the pre-signature. -/
theorem scalarMultG_of_extract {ring : List Point} {sig : Signature}
    (h : extract curve ring presig sig = some t) :
    curve.scalarMultG t = some presig.adaptor.TG := by
  obtain ⟨-, _, _, _, _, _, -, -, -, -, -, -, hTG, -⟩ := extract_eq_some.mp h
  exact hTG

omit [DecidableEq E] in
/-- The ring input with the adapted pre-signature gives the secret. -/
theorem exists_recoverFrom (hs : Recorded s presig) (h : Claims curve tx s presig t) :
    ∃ ri ∈ tx.ctBundle.ringInputs, recoverFrom curve s ri = some ⟨s.swapId, t⟩ := by
  obtain ⟨P, hP, hpoints⟩ := h.points
  obtain ⟨ri, hri, hcovers, pre, u, hpre, hu, hsig⟩ := h.input
  obtain ⟨_, -, hTG, -⟩ := computeAdaptorPoints_eq_some.mp hpoints
  obtain ⟨τ, hτ, -⟩ := scalarMultG_eq_some.mp hTG
  obtain ⟨σ, τ', hσ, hτ', hu⟩ := seckeyTweakAdd_eq_some.mp hu
  have heq : τ = τ' := some.inj ((parseScalar_of_seckey hτ).symm.trans hτ')
  rw [← heq] at hu
  obtain ⟨rest, hread⟩ := hs.presig
  have hextract : extract curve s.pricClaimRing presig ri.sig = some t := by
    rw [hsig]
    exact extract_adapted hP hpoints hpre hσ hτ hu
  exact ⟨ri, hri, recoverFrom_eq_some.mpr ⟨hcovers, rfl, presig, rest, hread, hextract⟩⟩

omit [DecidableEq E] in
/-- A swap that is scanned gives the secret of its pre-signature, whichever ring input it is taken
from. -/
theorem eq_of_recoverFrom (hs : Recorded s presig) (h : Claims curve tx s presig t)
    (hrec : recoverFrom curve s ri = some rec) : rec = ⟨s.swapId, t⟩ := by
  obtain ⟨P, -, hpoints⟩ := h.points
  obtain ⟨Hp, -, hTG, -⟩ := computeAdaptorPoints_eq_some.mp hpoints
  obtain ⟨rest, hread⟩ := hs.presig
  obtain ⟨-, hid, presig', rest', hread', hextract⟩ := recoverFrom_eq_some.mp hrec
  obtain ⟨rfl, -⟩ := Prod.mk.inj (some.inj (hread.symm.trans hread'))
  have ht := scalarMultG_inj (scalarMultG_of_extract hextract) hTG
  obtain ⟨swapId, t'⟩ := rec
  simp only at hid ht
  rw [hid, ht]

omit [DecidableEq E] in
theorem scanSwap_eq (hs : Recorded s presig) (h : Claims curve tx s presig t) :
    scanSwap curve tx s = if s.state = .btcFunded then none else some ⟨s.swapId, t⟩ := by
  have hblob : s.presigs.pricClaimPresigBlob ≠ [] := by
    intro hnil
    obtain ⟨rest, hread⟩ := hs.presig
    rw [hnil] at hread
    cases hread
  unfold scanSwap
  split_ifs with hawaits hbtc hbtc
  · simp [awaitsClaim, hbtc] at hawaits
  · obtain ⟨ri, hri, hrec⟩ := exists_recoverFrom hs h
    cases hfind : tx.ctBundle.ringInputs.findSome? (recoverFrom curve s) with
    | none =>
      rw [List.findSome?_eq_none_iff.mp hfind ri hri] at hrec
      cases hrec
    | some rec =>
      obtain ⟨ri', -, hrec'⟩ := exists_of_findSome?_eq_some hfind
      rw [eq_of_recoverFrom hs h hrec']
  · rfl
  · have hstate := hs.locked.resolve_left hbtc
    refine absurd ?_ hawaits
    simp [awaitsClaim, hs.alice, hs.secret, hstate, hs.ring, hblob, hs.outpoint.1,
      Int32.not_lt.mpr hs.outpoint.2]

omit [DecidableEq E] in
theorem scanSwap_cases (h : scanSwap curve tx s = some rec) :
    rec.swapId = s.swapId ∧ ∃ presig rest,
      adaptorPreSignatureCodec.read s.presigs.pricClaimPresigBlob = some (presig, rest) ∧
      curve.scalarMultG rec.tRecovered = some presig.adaptor.TG := by
  unfold scanSwap at h
  split at h
  · obtain ⟨ri, -, hrec⟩ := exists_of_findSome?_eq_some h
    obtain ⟨-, hid, presig, rest, hread, hextract⟩ := recoverFrom_eq_some.mp hrec
    exact ⟨hid, presig, rest, hread, scalarMultG_of_extract hextract⟩
  · cases h

end Records

section Wallets

variable {curve : Secp256k1 F E} {decodeTx : Text → Option Uint256}
variable {seals : Sealing ι} {env : Env ι} {order : List Uint256} {c : Wallet}
variable {table : Table} {swapId : Uint256}

/-- The swaps can be listed: the wallet is unlocked, and its rows are read. -/
def Lists (decodeTx : Text → Option Uint256) (seals : Sealing ι) (env : Env ι) (c : Wallet) :
    Prop :=
  ∃ records, (list decodeTx seals env c).1 = some (.ok records)

omit [DecidableEq E] in
/-- What the scan returns comes from a record that is found. -/
theorem mem_scan_iff (h : KeepsTo decodeTx seals c table) {rec : PricoinSwapClaimRecovery} :
    rec ∈ (scanTxForSwapClaim curve decodeTx seals env order tx c).1 ↔
      tx.version = pricoinCTVersion ∧ Lists decodeTx seals env c ∧ rec.swapId ∈ order ∧
      ∃ s, found decodeTx seals c rec.swapId = some s ∧ scanSwap curve tx s = some rec := by
  have hnone : ∀ s, tx.ctBundle.ringInputs = [] → scanSwap curve tx s ≠ some rec := by
    intro s hnil
    unfold scanSwap
    rw [hnil]
    split <;> exact nofun
  unfold scanTxForSwapClaim Lists
  split_ifs with hversion hnil
  · exact iff_of_false not_mem_nil fun h => hversion h.1
  · exact iff_of_false not_mem_nil fun ⟨_, _, _, s, _, hs⟩ => hnone s hnil hs
  · rw [ne_eq, not_not] at hversion
    split
    · rename_i records c' hlist
      have hfst := congrArg Prod.fst hlist
      have hfound : records = found decodeTx seals c := found_of_list h hfst
      subst hfound
      simp only [mem_filterMap, hversion, hfst, true_and]
      constructor
      · rintro ⟨s, ⟨swapId, hmem, hs⟩, hrec⟩
        have hkey : s.swapId = swapId := h.coherent.keyed swapId s (h.table_of_found hs)
        have hid : rec.swapId = swapId := (scanSwap_cases hrec).1.trans hkey
        exact ⟨⟨_, rfl⟩, hid ▸ hmem, s, hid ▸ hs, hrec⟩
      · rintro ⟨-, hmem, s, hs, hrec⟩
        exact ⟨s, ⟨rec.swapId, hmem, hs⟩, hrec⟩
    · rename_i answer hother hlist
      refine iff_of_false not_mem_nil ?_
      rintro ⟨-, ⟨records, hrecords⟩, -⟩
      rw [hlist] at hrecords
      exact hother records hrecords

omit [DecidableEq E] in
/-- The scan recovers the secret of a claimed swap just when the swaps can be listed and the record
is past the funding of the foreign coin alone. A secret that it returns is the logarithm of the
record's point just when that point is the one of the pre-signature. -/
theorem recovers_iff (curve : Secp256k1 F E) (decodeTx : Text → Option Uint256)
    (seals : Sealing ι) (events : List (Event ι)) (env : Env ι) (order : List Uint256)
    (tx : Transaction) :
    (∀ swapId s presig t,
      found decodeTx seals (run decodeTx seals events) swapId = some s → swapId ∈ order →
      Recorded s presig → Claims curve tx s presig t →
      ((∀ t', ⟨swapId, t'⟩ ∈ (scanTxForSwapClaim curve decodeTx seals env order tx
          (run decodeTx seals events)).1 ↔ t' = t) ↔
        Lists decodeTx seals env (run decodeTx seals events) ∧ s.state ≠ .btcFunded)) ∧
    ∀ swapId t, ⟨swapId, t⟩ ∈ (scanTxForSwapClaim curve decodeTx seals env order tx
        (run decodeTx seals events)).1 →
      ∃ s presig rest,
        found decodeTx seals (run decodeTx seals events) swapId = some s ∧
        adaptorPreSignatureCodec.read s.presigs.pricClaimPresigBlob = some (presig, rest) ∧
        (curve.scalarMultG t = some s.T_G ↔ presig.adaptor.TG = s.T_G) := by
  obtain ⟨table, h⟩ := keepsTo_run decodeTx seals events
  refine ⟨fun swapId s presig t hs hmem hrecorded hclaims => ?_, fun swapId t hrec => ?_⟩
  · have hkey : s.swapId = swapId := h.coherent.keyed swapId s (h.table_of_found hs)
    have hscan := scanSwap_eq hrecorded hclaims
    rw [hkey] at hscan
    constructor
    · intro hall
      obtain ⟨-, hlists, -, s', hs', hrec⟩ := (mem_scan_iff h).mp ((hall t).mpr rfl)
      obtain rfl := some.inj (hs.symm.trans hs')
      refine ⟨hlists, fun hbtc => ?_⟩
      rw [hscan, if_pos hbtc] at hrec
      cases hrec
    · rintro ⟨hlists, hstate⟩ t'
      rw [if_neg hstate] at hscan
      constructor
      · intro hrec
        obtain ⟨-, -, -, s', hs', hrec⟩ := (mem_scan_iff h).mp hrec
        obtain rfl := some.inj (hs.symm.trans hs')
        rw [hscan] at hrec
        exact (PricoinSwapClaimRecovery.mk.inj (some.inj hrec)).2.symm
      · rintro rfl
        exact (mem_scan_iff h).mpr ⟨hclaims.version, hlists, hmem, s, hs, hscan⟩
  · obtain ⟨-, -, -, s, hs, hrec⟩ := (mem_scan_iff h).mp hrec
    obtain ⟨-, presig, rest, hread, ht⟩ := scanSwap_cases hrec
    refine ⟨s, presig, rest, hs, hread, ?_⟩
    rw [ht, some.injEq]

end Wallets

section Sample

/-- Every text is the planned funding. -/
def claimDecode : Text → Option Uint256 := fun _ => some sampleTxid

def claimPreSigs : AdaptorSwapPreSigs :=
  { samplePreSigs with pricClaimPresigBlob := adaptorPreSignatureCodec.write samplePreSig }

/-- The first calls of Alice's swap with the given adaptor point, up to both coins. -/
def claimPath (T_G : Point) (calls : ℕ) : List (Event Unit) :=
  ([.create sampleEnv (sampleArgs .alice ltc),
    sampleCall (.setAdaptorMaterials T_G sampleAdaptor.TH [1] none),
    sampleCall (.setRefundTimelocks 10 20 5),
    sampleCall (.setPricClaimRing (sampleRing.map (·.P)) [] [] 1 []),
    sampleCall (.setPricFundingPlanned (List.replicate 20 97) 0),
    sampleCall (.setPreSigned claimPreSigs),
    sampleCall (.setBtcFunded (List.replicate 64 97) 0 1),
    sampleCall (.setPricFunded sampleTxid 0 1)] : List (Event Unit)).take calls

def claimWallet (T_G : Point) (calls : ℕ) : Wallet :=
  run claimDecode plainSealing (claimPath T_G calls)

/-- The claim, with the secret 1 on top of the response 1. -/
def claimTx : Transaction :=
  ⟨pricoinCTVersion, [], [], 0, ⟨[], [⟨[⟨sampleTxid, 0⟩], .replicate 33 0,
    samplePreSig.adapted (sampleScalar 2)⟩], [], 0⟩⟩

def claimScan (T_G : Point) (calls : ℕ) : List PricoinSwapClaimRecovery :=
  (scanTxForSwapClaim sampleCurve claimDecode plainSealing sampleEnv [sampleId] claimTx
    (claimWallet T_G calls)).1

/-- What the scan looks at in a record. -/
structure ClaimView where
  role : Role
  hasT : Bool
  state : State
  ring : List Point
  blob : List UInt8
  txid : Uint256
  vout : Int32
  deriving DecidableEq

def claimView (s : AdaptorSwap) : ClaimView :=
  ⟨s.role, s.hasT, s.state, s.pricClaimRing, s.presigs.pricClaimPresigBlob, s.pricFundingTxid,
    s.pricFundingVout⟩

/-- Alice's record that waits for the claim, in the given state. -/
def awaitingView (state : State) : ClaimView :=
  ⟨.alice, false, state, sampleRing.map (·.P), adaptorPreSignatureCodec.write samplePreSig,
    sampleTxid, 0⟩

theorem recorded_of_view {s : AdaptorSwap} {state : State} (h : claimView s = awaitingView state)
    (hstate : state = .btcFunded ∨ state = .bothFunded) :
    s.state = state ∧ Recorded s samplePreSig ∧
      Claims sampleCurve claimTx s samplePreSig (sampleScalar 1) := by
  obtain ⟨hrole, hsecret, hst, hring, hblob, htxid, hvout⟩ := ClaimView.mk.inj h
  have hread : adaptorPreSignatureCodec.read (adaptorPreSignatureCodec.write samplePreSig) =
      some (samplePreSig, []) := by
    decide +kernel
  have hpoints : computeAdaptorPoints sampleCurve (sampleScalar 1) (samplePoint 3) =
      some samplePreSig.adaptor := sampleAdaptor_eq
  refine ⟨hst, ⟨hrole, hsecret, ?_, ?_, ⟨[], hblob ▸ hread⟩, ?_⟩,
    ⟨rfl, ⟨samplePoint 3, hring ▸ rfl, hpoints⟩, ?_⟩⟩
  · rcases hstate with rfl | rfl
    · exact .inl hst
    · exact .inr (.inl hst)
  · rw [hring]
    exact cons_ne_nil _ _
  · rw [htxid, hvout]
    exact ⟨by decide, by decide⟩
  · refine ⟨_, mem_cons_self, ?_, sampleScalar 1, sampleScalar 2, rfl, by decide +kernel, rfl⟩
    simp only [coversFunding, htxid, hvout]
    decide

/-- The claim comes while the record has the planned funding only, and nothing is recovered. And a
pre-signature with another point than the record gives a secret that is not the record's. -/
theorem missed_and_foreign_secret :
    (∃ s, found claimDecode plainSealing (claimWallet (samplePoint 1) 7) sampleId = some s ∧
      s.state = .btcFunded ∧ Recorded s samplePreSig ∧
      Claims sampleCurve claimTx s samplePreSig (sampleScalar 1)) ∧
    claimScan (samplePoint 1) 7 = [] ∧
    (found claimDecode plainSealing (claimWallet (samplePoint 2) 8) sampleId).map (·.T_G) =
      some (samplePoint 2) ∧
    claimScan (samplePoint 2) 8 = [⟨sampleId, sampleScalar 1⟩] ∧
    sampleCurve.scalarMultG (sampleScalar 1) ≠ some (samplePoint 2) := by
  have hview : (found claimDecode plainSealing (claimWallet (samplePoint 1) 7) sampleId).map
      claimView = some (awaitingView .btcFunded) := by
    decide +kernel
  obtain ⟨s, hs, hclaim⟩ := map_eq_some_iff.mp hview
  exact ⟨⟨s, hs, recorded_of_view hclaim (.inl rfl)⟩, by decide +kernel, by decide +kernel,
    by decide +kernel, by decide +kernel⟩

theorem recovers_iff_bothFunded :
    ⟨sampleId, sampleScalar 1⟩ ∈ claimScan (samplePoint 1) 8 ∧
    sampleCurve.scalarMultG (sampleScalar 1) = some (samplePoint 1) := by
  have hview : (found claimDecode plainSealing (claimWallet (samplePoint 1) 8) sampleId).map
      claimView = some (awaitingView .bothFunded) := by
    decide +kernel
  have hpoint : (found claimDecode plainSealing (claimWallet (samplePoint 1) 8) sampleId).map
      (·.T_G) = some (samplePoint 1) := by
    decide +kernel
  obtain ⟨s, hs, hclaim⟩ := map_eq_some_iff.mp hview
  rw [hs, map_some, some.injEq] at hpoint
  obtain ⟨hstate, hrecorded, hclaims⟩ := recorded_of_view hclaim (.inr rfl)
  obtain ⟨htable, hkeeps⟩ := keepsTo_run claimDecode plainSealing (claimPath (samplePoint 1) 8)
  have hloaded : ¬ (claimWallet (samplePoint 1) 8).loaded = false := by decide +kernel
  have hlists : Lists claimDecode plainSealing sampleEnv (claimWallet (samplePoint 1) 8) :=
    ⟨_, list_of_loadable hkeeps (fun hunloaded => absurd hunloaded hloaded) rfl rfl⟩
  obtain ⟨hscan, hsecret⟩ := recovers_iff sampleCurve claimDecode plainSealing
    (claimPath (samplePoint 1) 8) sampleEnv [sampleId] claimTx
  have hmem := ((hscan sampleId s samplePreSig (sampleScalar 1) hs mem_cons_self hrecorded
    hclaims).mpr ⟨hlists, by rw [hstate]; exact nofun⟩ (sampleScalar 1)).mpr rfl
  obtain ⟨s', presig, rest, hs', hread, hiff⟩ := hsecret sampleId (sampleScalar 1) hmem
  obtain rfl := some.inj (hs.symm.trans hs')
  obtain ⟨rest', hread'⟩ := hrecorded.presig
  obtain ⟨rfl, -⟩ := Prod.mk.inj (some.inj (hread'.symm.trans hread))
  rw [hpoint] at hiff
  exact ⟨hmem, hiff.mpr rfl⟩

end Sample

end Pricoin.ClaimScan
