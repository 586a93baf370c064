import Pricoin.AdaptorSig
import Pricoin.JointRingSig

/-!
Adaptor pre-signatures made by any number of parties. Each proves for its share of
the nonce and of the two secrets that it was multiplied onto both bases, and whoever
combines the shares checks these proofs and that the public keys add up to the ring
member. The ring is walked from the sums moved by the adaptor points, with responses
for the other members that are hashes of the session, and closed with the sum of the
parties' responses.
-/
namespace Pricoin.AdaptorJointRingSig

open ByteStreams KeyImageFile Transactions CurveBytes CurveBytes.Secp256k1 RingWalks RingSig
open List Option
open AdaptorSig JointRingSig

variable {adaptor : AdaptorPoints} {XPubShares ZPubShares : List Point}
  {shares : List AdaptorNonceShareML} {sessionLabel sessionPayload : List UInt8}
  {combined : AdaptorCombineOutputML} {F E : Type} [Field F] [AddCommGroup E] [Module F E]
  [DecidableEq F] [DecidableEq E] {dleqT : DLEQProof} {α β : Type}

structure AdaptorNonceShareML where
  alpha : Scalar
  LShare : Point
  RShare : Point
  KIShare : Point
  DShare : Point
  dleqAlpha : DLEQProof
  dleqX : DLEQProof
  dleqZ : DLEQProof
  commitment : Scalar
  deriving DecidableEq

structure AdaptorCombineOutputML where
  KI : Point
  D : Point
  LPi : Point
  RPi : Point
  LPrime : Point
  RPrime : Point
  muP : Scalar
  muC : Scalar
  cPi : Scalar
  c0 : Scalar
  sOthers : List Scalar
  deriving DecidableEq

def coopTag : List UInt8 := ascii "pricoin/adaptor-coop-clsag/H_s-v1"

def coopRehashTag : List UInt8 := ascii "pricoin/adaptor-coop-clsag/H_s-rehash-v1"

def nonceCommitTag : List UInt8 := ascii "nonce-commit-ml-v1"

def sOthersTag : List UInt8 := ascii "s-others-ml-v1"

def alphaLabel : List UInt8 := ascii "pricoin/adaptor-coop/dleq-alpha-v1"

def xLabel : List UInt8 := ascii "pricoin/adaptor-coop/dleq-x-v1"

def zLabel : List UInt8 := ascii "pricoin/adaptor-coop/dleq-z-v1"

section Code

variable (curve : Secp256k1 F E)

def hashToScalarCoopAdaptor (chunks : List (List UInt8)) : Option Scalar :=
  curve.hashToScalarTagged coopTag coopRehashTag chunks

/-- A proof as the bytes that are committed to. -/
def dump (proof : DLEQProof) : List UInt8 :=
  proof.AG.toList ++ proof.AH.toList ++ proof.z.toList

/-- The commitment in the share itself is not part of what is hashed. -/
def computeNonceCommitML (share : AdaptorNonceShareML) (adaptor : AdaptorPoints)
    (sessionLabel sessionPayload : List UInt8) : Option Scalar :=
  hashToScalarCoopAdaptor curve [nonceCommitTag, share.LShare.toList, share.RShare.toList,
    share.KIShare.toList, share.DShare.toList, adaptor.TG.toList, adaptor.TH.toList,
    dump share.dleqAlpha ++ dump share.dleqX ++ dump share.dleqZ, sessionLabel, sessionPayload]

def derivedSOtherML (ring : List MultiLayerMember) (pi i : ℕ) (KI D : Point)
    (adaptor : AdaptorPoints) (sessionLabel sessionPayload : List UInt8) : Option Scalar :=
  hashToScalarCoopAdaptor curve [sOthersTag, ringBlob ring, leBytes 4 pi, leBytes 4 i, KI.toList,
    D.toList, adaptor.TG.toList, adaptor.TH.toList, sessionLabel, sessionPayload]

/-- The nonce and the random numbers of the three proofs are arguments. -/
def nonceGenAdaptorML (P X Z : Point) (x z : Scalar) (adaptor : AdaptorPoints)
    (sessionLabel sessionPayload : List UInt8) (alpha rAlpha rX rZ : Seckey curve) :
    Option AdaptorNonceShareML :=
  if curve.seckeyVerify x = false ∨ curve.seckeyVerify z = false then none
  else if curve.scalarMultG x ≠ some X ∨ curve.scalarMultG z ≠ some Z then none
  else do
    let L ← curve.scalarMultG alpha.1
    let Hp ← curve.hashToPoint P.toList
    let R ← curve.scalarMultPoint alpha.1 Hp
    let KI ← curve.scalarMultPoint x Hp
    let D ← curve.scalarMultPoint z Hp
    let dleqAlpha ← makeDLEQProof curve alpha.1 P ⟨L, R⟩ alphaLabel sessionPayload rAlpha
    let dleqX ← makeDLEQProof curve x P ⟨X, KI⟩ xLabel sessionPayload rX
    let dleqZ ← makeDLEQProof curve z P ⟨Z, D⟩ zLabel sessionPayload rZ
    let share : AdaptorNonceShareML := ⟨alpha.1, L, R, KI, D, dleqAlpha, dleqX, dleqZ, zeroScalar⟩
    let commitment ← computeNonceCommitML curve share adaptor sessionLabel sessionPayload
    some { share with commitment := commitment }

def verifyAdaptorNonceShareML (P X Z : Point) (share : AdaptorNonceShareML)
    (adaptor : AdaptorPoints) (sessionLabel sessionPayload : List UInt8) : Bool :=
  verifyDLEQProof curve P ⟨share.LShare, share.RShare⟩ share.dleqAlpha alphaLabel sessionPayload &&
    verifyDLEQProof curve P ⟨X, share.KIShare⟩ share.dleqX xLabel sessionPayload &&
    verifyDLEQProof curve P ⟨Z, share.DShare⟩ share.dleqZ zLabel sessionPayload &&
    computeNonceCommitML curve share adaptor sessionLabel sessionPayload = some share.commitment

/-- Points added one after the other, from the first on. -/
def sumPoints : List Point → Option Point
  | [] => none
  | first :: points => points.foldlM curve.addPoints first

/-- What remains after the checks: the sums, their comparison with the ring member and the walk. -/
def combineChecked (ring : List MultiLayerMember) (pi : ℕ) (m : MultiLayerMember)
    (msg : Uint256) (adaptor : AdaptorPoints) (XPubShares ZPubShares : List Point)
    (shares : List AdaptorNonceShareML) (sessionLabel sessionPayload : List UInt8) :
    Option AdaptorCombineOutputML := do
  let LPi ← sumPoints curve (shares.map (·.LShare))
  let RPi ← sumPoints curve (shares.map (·.RShare))
  let KI ← sumPoints curve (shares.map (·.KIShare))
  let D ← sumPoints curve (shares.map (·.DShare))
  let jointX ← sumPoints curve XPubShares
  let jointZ ← sumPoints curve ZPubShares
  if jointX ≠ m.P ∨ jointZ ≠ m.W then none
  else do
    let mu ← computeMu curve ring KI D
    let LPrime ← curve.addPoints LPi adaptor.TG
    let RPrime ← curve.addPoints RPi adaptor.TH
    let sOthers ← (List.range ring.length).mapM fun i =>
      if i = pi then some zeroScalar
      else derivedSOtherML curve ring pi i KI D adaptor sessionLabel sessionPayload
    let walk ← walkRingMultiLayer curve ring pi msg KI D LPrime RPrime sOthers
    some ⟨KI, D, LPi, RPi, LPrime, RPrime, mu.muP, mu.muC, walk.cPi, walk.c0, sOthers⟩

def combineAndWalkML (ring : List MultiLayerMember) (pi : ℕ) (msg : Uint256)
    (adaptor : AdaptorPoints) (dleqT : DLEQProof) (XPubShares ZPubShares : List Point)
    (shares : List AdaptorNonceShareML) (sessionLabel sessionPayload : List UInt8) :
    Option AdaptorCombineOutputML :=
  match ring[pi]? with
  | none => none
  | some m =>
    if hasDuplicateMembers ring then none
    else if XPubShares.length ≠ shares.length ∨ shares = [] then none
    else if ZPubShares.length ≠ shares.length then none
    else if verifyDLEQProof curve m.P adaptor dleqT sessionLabel sessionPayload = false then none
    else if (XPubShares.zip (ZPubShares.zip shares)).all (fun q => verifyAdaptorNonceShareML curve
        m.P q.1 q.2.1 q.2.2 adaptor sessionLabel sessionPayload) = false then none
    else combineChecked curve ring pi m msg adaptor XPubShares ZPubShares shares sessionLabel
      sessionPayload

/-- The secrets are aggregated and the response is made as in `CloseShare`. -/
def cooperativeCloseShareAdaptorML (alpha cPi muP muC x z : Scalar) : Option Scalar :=
  if curve.seckeyVerify alpha = false ∨ curve.seckeyVerify cPi = false ∨
      curve.seckeyVerify muP = false ∨ curve.seckeyVerify muC = false ∨
      curve.seckeyVerify x = false ∨ curve.seckeyVerify z = false then none
  else do
    let a ← aggregateScalar curve x z ⟨muP, muC⟩
    closeShare curve alpha cPi a

/-- The responses are added as `CombineScalars` does it, and the index is kept in 32 bits. -/
def assembleAdaptorPreSigML (combined : AdaptorCombineOutputML) (closeShares : List Scalar)
    (pi : ℕ) (adaptor : AdaptorPoints) (dleqT : DLEQProof) : Option AdaptorPreSignature :=
  if closeShares = [] ∨ combined.sOthers.length ≤ pi then none
  else do
    let sPi ← combineScalars curve closeShares
    some ⟨combined.KI, combined.D, combined.c0, combined.sOthers.set pi sPi, adaptor, dleqT,
      UInt32.ofNat pi⟩

/-- The secrets of a party with their public keys, and its random choices. -/
structure Party where
  x : Scalar
  z : Scalar
  X : Point
  Z : Point
  alpha : Seckey curve
  rAlpha : Seckey curve
  rX : Seckey curve
  rZ : Seckey curve

/-- The rounds of all parties in one place, as the self-test runs them. -/
def cooperativePreSign (ring : List MultiLayerMember) (pi : ℕ) (msg : Uint256)
    (adaptor : AdaptorPoints) (dleqT : DLEQProof) (parties : List (Party curve))
    (sessionLabel sessionPayload : List UInt8) : Option AdaptorPreSignature := do
  let m ← ring[pi]?
  let shares ← parties.mapM fun q => nonceGenAdaptorML curve m.P q.X q.Z q.x q.z adaptor
    sessionLabel sessionPayload q.alpha q.rAlpha q.rX q.rZ
  let combined ← combineAndWalkML curve ring pi msg adaptor dleqT (parties.map (·.X))
    (parties.map (·.Z)) shares sessionLabel sessionPayload
  let closeShares ← (parties.zip shares).mapM fun q => cooperativeCloseShareAdaptorML curve
    q.2.alpha combined.cPi combined.muP combined.muC q.1.x q.1.z
  assembleAdaptorPreSigML curve combined closeShares pi adaptor dleqT

end Code

/-- Three lists of one length are the parts of the list of triples. -/
theorem map_zip_zip {γ : Type} {as : List α} {bs : List β} {cs : List γ}
    (has : as.length = cs.length) (hbs : bs.length = cs.length) :
    (as.zip (bs.zip cs)).map (·.1) = as ∧ (as.zip (bs.zip cs)).map (·.2.1) = bs ∧
      (as.zip (bs.zip cs)).map (·.2.2) = cs := by
  have hlength : (bs.zip cs).length = cs.length := by simp [hbs]
  have hrest : (as.zip (bs.zip cs)).map Prod.snd = bs.zip cs := map_snd_zip (by omega)
  refine ⟨map_fst_zip (by omega), ?_, ?_⟩
  · have hfst := map_fst_zip (Nat.le_of_eq hbs)
    rwa [← hrest, List.map_map] at hfst
  · have hsnd := map_snd_zip (Nat.le_of_eq hbs.symm)
    rwa [← hrest, List.map_map] at hsnd

theorem forall_zip_of_mapM {f : α → Option β} {as : List α} {bs : List β}
    (h : as.mapM f = some bs) : bs.length = as.length ∧ ∀ q ∈ as.zip bs, f q.1 = some q.2 := by
  induction as generalizing bs with
  | nil =>
    obtain rfl : [] = bs := some.inj h
    simp
  | cons a as ih =>
    rw [mapM_cons] at h
    obtain ⟨b, hb, h⟩ := bind_eq_some_iff.mp h
    obtain ⟨bs', hbs', h⟩ := bind_eq_some_iff.mp h
    obtain rfl := some.inj h
    obtain ⟨hlength, hall⟩ := ih hbs'
    refine ⟨by simp [hlength], ?_⟩
    rw [zip_cons_cons, forall_mem_cons]
    exact ⟨hb, hall⟩

/-- What is true of each result of a list of computations. -/
theorem map_of_mapM {γ : Type} {f : α → Option β} {as : List α} {bs : List β}
    (h : as.mapM f = some bs) {v : β → γ} {φ : α → γ}
    (hφ : ∀ a ∈ as, ∀ b, f a = some b → v b = φ a) : bs.map v = as.map φ := by
  obtain ⟨hlength, hall⟩ := forall_zip_of_mapM h
  have hbs : (as.zip bs).map Prod.snd = bs := map_snd_zip (by omega)
  have has : (as.zip bs).map Prod.fst = as := map_fst_zip (by omega)
  conv_lhs => rw [← hbs, List.map_map]
  conv_rhs => rw [← has, List.map_map]
  refine map_congr_left fun q hq => hφ q.1 ?_ q.2 (hall q hq)
  exact (of_mem_zip hq).1

section Sums

variable {curve : Secp256k1 F E} {ι : Type} {parties : List ι} {ν : ι → F} {point : ι → Point}
variable {base : E} {b : Point}

omit [DecidableEq F] in
theorem parse_of_foldlM_addPoints {acc : Point} {α : F}
    (hacc : curve.parsePoint acc = some (α • base))
    (h : ∀ q ∈ parties, curve.parsePoint (point q) = some (ν q • base))
    (hb : (parties.map point).foldlM curve.addPoints acc = some b) :
    curve.parsePoint b = some ((α + (parties.map ν).sum) • base) := by
  induction parties generalizing acc α with
  | nil =>
    obtain rfl : acc = b := some.inj hb
    rw [map_nil, sum_nil, add_zero, hacc]
  | cons q parties ih =>
    rw [map_cons, foldlM_cons] at hb
    obtain ⟨next, hnext, hb⟩ := bind_eq_some_iff.mp hb
    rw [addPoints_iff hacc (h q mem_cons_self), ← add_smul] at hnext
    rw [ih hnext (fun q' hq' => h q' (mem_cons_of_mem q hq')) hb, map_cons,
      sum_cons, add_assoc]

omit [DecidableEq F] in
/-- The sum of the parties' points has the sum of their logarithms. -/
theorem parse_of_sumPoints (h : ∀ q ∈ parties, curve.parsePoint (point q) = some (ν q • base))
    (hb : sumPoints curve (parties.map point) = some b) :
    curve.parsePoint b = some ((parties.map ν).sum • base) := by
  cases parties with
  | nil => contradiction
  | cons q parties =>
    rw [map_cons, sumPoints] at hb
    rw [parse_of_foldlM_addPoints (h q mem_cons_self)
      (fun q' hq' => h q' (mem_cons_of_mem q hq')) hb, map_cons, sum_cons]

end Sums

section Combining

variable {curve : Secp256k1 F E} {ring : List MultiLayerMember} {pi : ℕ} {m : MultiLayerMember}
variable {msg : Uint256}

/-- The walk behind a combination: the statement it is about and the challenges around the ring. -/
structure Walked (curve : Secp256k1 F E) (ring : List MultiLayerMember) (pi : ℕ) (msg : Uint256)
    (combined : AdaptorCombineOutputML) (st : Statement) (first : Scalar) (c : ℕ → Scalar) :
    Prop where
  position : pi < ring.length
  responses : combined.sOthers.length = ring.length
  distinct : (ring.map (·.P)).Nodup
  aggregated : aggregate curve ring combined.KI combined.D = some st
  weights : st.mu = ⟨combined.muP, combined.muC⟩
  anchored : challenge curve st msg (combined.LPrime, combined.RPrime) = some first
  filled : fillFrom (ringStep curve st msg combined.sOthers) ring.length pi first
    (fun _ => zeroScalar) = some c
  closing : combined.cPi = c pi
  start : combined.c0 = c 0

theorem combineChecked_eq_some
    (h : combineChecked curve ring pi m msg adaptor XPubShares ZPubShares shares sessionLabel
      sessionPayload = some combined) :
    sumPoints curve (shares.map (·.LShare)) = some combined.LPi ∧
      sumPoints curve (shares.map (·.RShare)) = some combined.RPi ∧
      sumPoints curve (shares.map (·.KIShare)) = some combined.KI ∧
      sumPoints curve (shares.map (·.DShare)) = some combined.D ∧
      sumPoints curve XPubShares = some m.P ∧ sumPoints curve ZPubShares = some m.W ∧
      curve.addPoints combined.LPi adaptor.TG = some combined.LPrime ∧
      curve.addPoints combined.RPi adaptor.TH = some combined.RPrime ∧
      ∃ st first c, Walked curve ring pi msg combined st first c := by
  obtain ⟨LPi, hL, h⟩ := bind_eq_some_iff.mp h
  obtain ⟨RPi, hR, h⟩ := bind_eq_some_iff.mp h
  obtain ⟨KI, hKI, h⟩ := bind_eq_some_iff.mp h
  obtain ⟨D, hD, h⟩ := bind_eq_some_iff.mp h
  obtain ⟨jointX, hX, h⟩ := bind_eq_some_iff.mp h
  obtain ⟨jointZ, hZ, h⟩ := bind_eq_some_iff.mp h
  split at h
  · contradiction
  · rename_i hmember
    rw [not_or, not_not, not_not] at hmember
    obtain ⟨hP, hW⟩ := hmember
    obtain ⟨mu, hmu, h⟩ := bind_eq_some_iff.mp h
    obtain ⟨LPrime, hLPrime, h⟩ := bind_eq_some_iff.mp h
    obtain ⟨RPrime, hRPrime, h⟩ := bind_eq_some_iff.mp h
    obtain ⟨sOthers, -, h⟩ := bind_eq_some_iff.mp h
    obtain ⟨walk, hwalk, h⟩ := bind_eq_some_iff.mp h
    obtain rfl := some.inj h
    obtain ⟨hpi, hlength, hnodup, st, first, c, hst, hfirst, hfill, rfl⟩ :=
      walkRingMultiLayer_eq_some hwalk
    obtain ⟨-, -, -, hstmu, -, -⟩ := aggregate_eq_some.mp hst
    have hweights := some.inj (hstmu.symm.trans (multiLayerMu_of_computeMu hmu))
    exact ⟨hL, hR, hKI, hD, hP ▸ hX, hW ▸ hZ, hLPrime, hRPrime, st, first, c, hpi, hlength, hnodup,
      hst, hweights, hfirst, hfill, rfl, rfl⟩

/-- What is checked before anything is combined. -/
theorem combineAndWalkML_eq_some
    (h : combineAndWalkML curve ring pi msg adaptor dleqT XPubShares ZPubShares shares sessionLabel
      sessionPayload = some combined) :
    ∃ m, ring[pi]? = some m ∧ XPubShares.length = shares.length ∧
      ZPubShares.length = shares.length ∧
      verifyDLEQProof curve m.P adaptor dleqT sessionLabel sessionPayload = true ∧
      (∀ q ∈ XPubShares.zip (ZPubShares.zip shares), verifyAdaptorNonceShareML curve m.P q.1 q.2.1
        q.2.2 adaptor sessionLabel sessionPayload = true) ∧
      combineChecked curve ring pi m msg adaptor XPubShares ZPubShares shares sessionLabel
        sessionPayload = some combined := by
  unfold combineAndWalkML at h
  cases hm : ring[pi]? with
  | none => simp [hm] at h
  | some m =>
    simp only [hm] at h
    split at h
    · contradiction
    · split at h
      · contradiction
      · rename_i hX
        split at h
        · contradiction
        · rename_i hZ
          split at h
          · contradiction
          · rename_i hdleq
            split at h
            · contradiction
            · rename_i hshares
              rw [not_or, not_not] at hX
              rw [Bool.not_eq_false, List.all_eq_true] at hshares
              exact ⟨m, rfl, hX.1, not_not.mp hZ, Bool.not_eq_false _ ▸ hdleq, hshares, h⟩

end Combining

section Closing

variable {curve : Secp256k1 F E} {ring : List MultiLayerMember} {pi : ℕ} {m : MultiLayerMember}
variable {msg : Uint256}

/-- What is combined has common logarithms with respect to `G` and to the hash of the ring member:
the secrets behind the member, the nonce and the adaptor secret. -/
structure Consistent (curve : Secp256k1 F E) (m : MultiLayerMember) (adaptor : AdaptorPoints)
    (combined : AdaptorCombineOutputML) (hp : E) (p w α t : F) : Prop where
  base : ∃ Hp, curve.hashToPoint m.P.toList = some Hp ∧ curve.parsePoint Hp = some hp
  spendKey : curve.parsePoint m.P = some (p • curve.G)
  offset : curve.parsePoint m.W = some (w • curve.G)
  keyImage : curve.parsePoint combined.KI = some (p • hp)
  commitmentImage : curve.parsePoint combined.D = some (w • hp)
  nonceL : curve.parsePoint combined.LPi = some (α • curve.G)
  nonceR : curve.parsePoint combined.RPi = some (α • hp)
  adaptorG : curve.parsePoint adaptor.TG = some (t • curve.G)
  adaptorH : curve.parsePoint adaptor.TH = some (t • hp)
  shiftedL : curve.parsePoint combined.LPrime = some ((α + t) • curve.G)
  shiftedR : curve.parsePoint combined.RPrime = some ((α + t) • hp)

/-- Logarithms of the parties' shares add up to those of what is combined. -/
theorem consistent_of_logs {ι : Type} {parties : List ι} {X Z : ι → Point}
    {share : ι → AdaptorNonceShareML} {ξ ζ ν : ι → F} {hp : E} {t : F}
    (h : combineChecked curve ring pi m msg adaptor (parties.map X) (parties.map Z)
      (parties.map share) sessionLabel sessionPayload = some combined)
    (hbase : ∃ Hp, curve.hashToPoint m.P.toList = some Hp ∧ curve.parsePoint Hp = some hp)
    (hTG : curve.parsePoint adaptor.TG = some (t • curve.G))
    (hTH : curve.parsePoint adaptor.TH = some (t • hp))
    (hx : ∀ q ∈ parties, curve.parsePoint (X q) = some (ξ q • curve.G) ∧
      curve.parsePoint (share q).KIShare = some (ξ q • hp))
    (hz : ∀ q ∈ parties, curve.parsePoint (Z q) = some (ζ q • curve.G) ∧
      curve.parsePoint (share q).DShare = some (ζ q • hp))
    (hα : ∀ q ∈ parties, curve.parsePoint (share q).LShare = some (ν q • curve.G) ∧
      curve.parsePoint (share q).RShare = some (ν q • hp)) :
    Consistent curve m adaptor combined hp (parties.map ξ).sum (parties.map ζ).sum
      (parties.map ν).sum t := by
  obtain ⟨hL, hR, hKI, hD, hP, hW, hLPrime, hRPrime, -⟩ := combineChecked_eq_some h
  rw [List.map_map] at hL hR hKI hD
  have hL := parse_of_sumPoints (fun q hq => (hα q hq).1) hL
  have hR := parse_of_sumPoints (fun q hq => (hα q hq).2) hR
  rw [addPoints_iff hL hTG, ← add_smul] at hLPrime
  rw [addPoints_iff hR hTH, ← add_smul] at hRPrime
  exact {
    base := hbase
    spendKey := parse_of_sumPoints (fun q hq => (hx q hq).1) hP
    offset := parse_of_sumPoints (fun q hq => (hz q hq).1) hW
    keyImage := parse_of_sumPoints (fun q hq => (hx q hq).2) hKI
    commitmentImage := parse_of_sumPoints (fun q hq => (hz q hq).2) hD
    nonceL := hL
    nonceR := hR
    adaptorG := hTG
    adaptorH := hTH
    shiftedL := hLPrime
    shiftedR := hRPrime }

variable {st : Statement} {first : Scalar} {c : ℕ → Scalar} {hp : E} {p w α t : F}

/-- The challenge at the signers' position is a hash, hence a valid scalar. -/
theorem Walked.closing_valid (h : Walked curve ring pi msg combined st first c) :
    curve.seckey (c pi) = some (curve.value combined.cPi) := by
  have hhash : ∀ points d, challenge curve st msg points = some d →
      ∃ a, curve.seckey d = some a :=
    fun points d hd => seckey_of_hashToScalarTagged hd
  have hvalid : ∃ γ, curve.seckey (c pi) = some γ := by
    rcases fillFrom_reached h.position h.filled h.position with hfirst | ⟨j, -, hstep⟩
    · exact hhash _ _ (hfirst ▸ h.anchored)
    · obtain ⟨points, -, hd⟩ := bind_eq_some_iff.mp hstep
      exact hhash _ _ hd
  obtain ⟨γ, hγ⟩ := hvalid
  rw [hγ, h.closing, value_of_seckey hγ]

theorem Walked.knows (h : Walked curve ring pi msg combined st first c)
    (hm : ring[pi]? = some m) (hcons : Consistent curve m adaptor combined hp p w α t) :
    Knows curve st pi hp (curve.value combined.muP * p + curve.value combined.muC * w) := by
  obtain ⟨Hp, hHp, hhp⟩ := hcons.base
  obtain ⟨-, -, -, hmu, -, -⟩ := aggregate_eq_some.mp h.aggregated
  obtain ⟨⟨μP, hμP⟩, μC, hμC⟩ := seckey_of_multiLayerMu hmu
  have hknows := knows_of_aggregate h.aggregated hm hHp hhp hcons.spendKey hcons.offset
    hcons.keyImage hcons.commitmentImage hμP hμC
  rw [h.weights] at hμP hμC
  rwa [value_of_seckey hμP, value_of_seckey hμC]

/-- The verifier comes to the signers' points exactly if the response is right. -/
theorem preSigPoints_anchor_iff (hwalked : Walked curve ring pi msg combined st first c)
    (hm : ring[pi]? = some m) (hcons : Consistent curve m adaptor combined hp p w α t)
    {sPi : Scalar} {σ : F} (hσ : curve.seckey sPi = some σ) :
    preSigPoints curve st (combined.sOthers.set pi sPi) pi adaptor.TG adaptor.TH pi (c pi) =
        some (combined.LPrime, combined.RPrime) ↔
      σ = α - curve.value combined.cPi *
        (curve.value combined.muP * p + curve.value combined.muC * w) := by
  have hget : (combined.sOthers.set pi sPi)[pi]? = some sPi :=
    List.getElem?_set_self (hwalked.responses ▸ hwalked.position)
  have hpoints (l r : Point) := (hwalked.knows hm hcons).ringPoints_iff (L := l) (R := r) hget hσ
    hwalked.closing_valid
  rw [preSigPoints_self, eq_sub_iff_add_eq]
  constructor
  · rintro ⟨l, r, hring, hL, -⟩
    obtain ⟨hl, -⟩ := (hpoints l r).mp hring
    rw [addPoints_iff hl hcons.adaptorG, hcons.shiftedL, ← add_smul, some.injEq,
      smul_generator_inj] at hL
    exact (add_right_cancel hL).symm
  · intro hsum
    refine ⟨combined.LPi, combined.RPi, (hpoints _ _).mpr ?_, ?_, ?_⟩
    · rw [hsum]
      exact ⟨hcons.nonceL, hcons.nonceR⟩
    · rw [addPoints_iff hcons.nonceL hcons.adaptorG, hcons.shiftedL, add_smul]
    · rw [addPoints_iff hcons.nonceR hcons.adaptorH, hcons.shiftedR, add_smul]

theorem preSigStep_set {s : List Scalar} {TG TH : Point} {i : ℕ} (r : Scalar) (hne : i ≠ pi) :
    preSigStep curve st msg (s.set pi r) pi TG TH i = ringStep curve st msg s i := by
  funext d
  rw [preSigStep, preSigPoints_of_ne hne, ringPoints_set r hne, ringStep]

omit [DecidableEq E] in
theorem assembleAdaptorPreSigML_eq_some {closeShares : List Scalar}
    {presig : AdaptorPreSignature}
    (h : assembleAdaptorPreSigML curve combined closeShares pi adaptor dleqT = some presig) :
    ∃ sPi, curve.seckey sPi = some (closeShares.map curve.value).sum ∧
      presig = ⟨combined.KI, combined.D, combined.c0, combined.sOthers.set pi sPi, adaptor, dleqT,
        UInt32.ofNat pi⟩ := by
  unfold assembleAdaptorPreSigML at h
  split at h
  · contradiction
  · obtain ⟨sPi, hsPi, h⟩ := bind_eq_some_iff.mp h
    exact ⟨sPi, seckey_of_combineScalars hsPi, (some.inj h).symm⟩

/-- All that the verifier checks of an assembled pre-signature is that its walk closes. -/
theorem verifies_iff_walk (hwalked : Walked curve ring pi msg combined st first c)
    (hcons : Consistent curve m adaptor combined hp p w α t) (sPi : Scalar) :
    verifyMultiLayerPreSig curve ring
        ⟨combined.KI, combined.D, combined.c0, combined.sOthers.set pi sPi⟩ msg pi adaptor.TG
        adaptor.TH = true ↔
      walk (preSigStep curve st msg (combined.sOthers.set pi sPi) pi adaptor.TG adaptor.TH) 0
        ring.length (c 0) = some (c 0) := by
  rw [verifyMultiLayerPreSig_iff, hwalked.start]
  constructor
  · rintro ⟨-, -, -, -, -, st', hst', hwalk⟩
    obtain rfl := some.inj (hwalked.aggregated.symm.trans hst')
    exact hwalk
  · intro hwalk
    exact ⟨hwalked.position, by simp [hwalked.responses], hwalked.distinct,
      by simp [hcons.adaptorG], by simp [hcons.adaptorH], st, hwalked.aggregated, hwalk⟩

/-- The points that the signers hash at a position, from their own on to the last. -/
def signerPoints (curve : Secp256k1 F E) (st : Statement) (msg : Uint256) (s : List Scalar)
    (pi : ℕ) (anchor : Point × Point) (i : ℕ) : Option (Point × Point) :=
  if i = pi then some anchor
  else do
    let first ← challenge curve st msg anchor
    let d ← walk (ringStep curve st msg s) (pi + 1) (i - (pi + 1)) first
    ringPoints curve st s i d

/-- The points that the verifier of a pre-signature hashes at a position. -/
def verifierPoints (curve : Secp256k1 F E) (st : Statement) (msg : Uint256)
    (presig : AdaptorPreSignature) (pi i : ℕ) : Option (Point × Point) := do
  let d ← walk (preSigStep curve st msg presig.s pi presig.adaptor.TG presig.adaptor.TH) 0 i
    presig.c0
  preSigPoints curve st presig.s pi presig.adaptor.TG presig.adaptor.TH i d

/-- At some position the signers and the verifier hash different points to one challenge. -/
def Coincidence (curve : Secp256k1 F E) (ring : List MultiLayerMember) (pi : ℕ) (msg : Uint256)
    (combined : AdaptorCombineOutputML) (presig : AdaptorPreSignature) : Prop :=
  ∃ st, aggregate curve ring combined.KI combined.D = some st ∧
    ∃ i points points' e, pi ≤ i ∧ i < ring.length ∧
      signerPoints curve st msg combined.sOthers pi (combined.LPrime, combined.RPrime) i =
        some points ∧
      verifierPoints curve st msg presig pi i = some points' ∧ points ≠ points' ∧
      challenge curve st msg points = some e ∧ challenge curve st msg points' = some e

/-- Different challenges make different points. -/
theorem challenge_unique {s : List Scalar} {i : ℕ} {d d' : Scalar} {points : Point × Point}
    (h : ringPoints curve st s i d = some points) (h' : ringPoints curve st s i d' = some points) :
    d = d' := by
  obtain ⟨L, R⟩ := points
  obtain ⟨m, t, r, Hp, -, ht, hr, -, T, _, _, σ, γ, hT, -, -, hσ, hγ, hL, -⟩ :=
    ringPoints_eq_some.mp h
  obtain ⟨m', t', r', Hp', -, ht', hr', -, T', _, _, σ', γ', hT', -, -, hσ', hγ', hL', -⟩ :=
    ringPoints_eq_some.mp h'
  obtain rfl := some.inj (ht.symm.trans ht')
  obtain rfl := some.inj (hr.symm.trans hr')
  obtain rfl := some.inj (hT.symm.trans hT')
  obtain rfl := some.inj (hσ.symm.trans hσ')
  have hmul := add_left_cancel (some.inj (hL.symm.trans hL'))
  obtain rfl := smul_left_injective F (curve.ne_zero_of_parse _ _ hT) hmul
  exact seckey_inj hγ hγ'

section Assembled

variable {closeShares : List Scalar} {presig : AdaptorPreSignature}

/-- Responses with the right sum make a pre-signature that is accepted. -/
theorem verifies_of_sum (hwalked : Walked curve ring pi msg combined st first c)
    (hm : ring[pi]? = some m) (hcons : Consistent curve m adaptor combined hp p w α t)
    (h : assembleAdaptorPreSigML curve combined closeShares pi adaptor dleqT = some presig)
    (hsum : (closeShares.map curve.value).sum = α - curve.value combined.cPi *
      (curve.value combined.muP * p + curve.value combined.muC * w)) :
    verifyMultiLayerPreSig curve ring presig.signature msg pi adaptor.TG adaptor.TH = true := by
  obtain ⟨sPi, hsPi, rfl⟩ := assembleAdaptorPreSigML_eq_some h
  refine (verifies_iff_walk hwalked hcons sPi).mpr ?_
  refine walk_closes hwalked.position hwalked.filled (fun i _ hne => preSigStep_set sPi hne) ?_
  rw [preSigStep, (preSigPoints_anchor_iff hwalked hm hcons hsPi).mpr hsum, bind_some,
    hwalked.anchored]

/-- A pre-signature that is accepted has responses with the right sum, or a coincidence. -/
theorem sum_of_verifies (hwalked : Walked curve ring pi msg combined st first c)
    (hm : ring[pi]? = some m) (hcons : Consistent curve m adaptor combined hp p w α t)
    (h : assembleAdaptorPreSigML curve combined closeShares pi adaptor dleqT = some presig)
    (hverify : verifyMultiLayerPreSig curve ring presig.signature msg pi adaptor.TG adaptor.TH =
      true) :
    (closeShares.map curve.value).sum = α - curve.value combined.cPi *
        (curve.value combined.muP * p + curve.value combined.muC * w) ∨
      Coincidence curve ring pi msg combined presig := by
  obtain ⟨sPi, hsPi, rfl⟩ := assembleAdaptorPreSigML_eq_some h
  have hwalk := (verifies_iff_walk hwalked hcons sPi).mp hverify
  have hsame := fun i (_ : i < ring.length) hne =>
    @preSigStep_set F E _ _ _ _ _ curve pi msg st combined.sOthers adaptor.TG adaptor.TH i sPi hne
  rcases closes_or_meets hwalked.position hwalked.filled hsame hwalk with hclose | hmeet
  · -- the verifier's step at the position leads on, from the signers' points or from others
    obtain ⟨points, hpoints, hfirst⟩ := bind_eq_some_iff.mp hclose
    by_cases heq : points = (combined.LPrime, combined.RPrime)
    · exact .inl ((preSigPoints_anchor_iff hwalked hm hcons hsPi).mp (heq ▸ hpoints))
    · refine .inr ⟨st, hwalked.aggregated, pi, _, points, first, Nat.le_refl pi, hwalked.position,
        if_pos rfl, ?_, Ne.symm heq, hwalked.anchored, hfirst⟩
      have hto := walk_to hwalked.position hwalked.filled hsame
      exact bind_eq_some_iff.mpr ⟨c pi, hwalked.start ▸ hto, hpoints⟩
  · obtain ⟨i, hlt, hi, d, d', hd, hd', hne, f, hf, hf'⟩ := hmeet
    have hipi : i ≠ pi := by omega
    obtain ⟨points, hpoints, hpf⟩ := bind_eq_some_iff.mp hf
    obtain ⟨points', hpoints', hpf'⟩ := bind_eq_some_iff.mp hf'
    rw [preSigPoints_of_ne hipi] at hpoints
    have hdiffer : points ≠ points' := by
      rintro rfl
      rw [preSigPoints_of_ne hipi] at hpoints'
      exact hne (challenge_unique hpoints hpoints')
    rw [ringPoints_set sPi hipi] at hpoints
    refine .inr ⟨st, hwalked.aggregated, i, points, points', f, by omega, hi, ?_, ?_, hdiffer, hpf,
      hpf'⟩
    · rw [signerPoints, if_neg hipi]
      refine bind_eq_some_iff.mpr ⟨first, hwalked.anchored, ?_⟩
      refine bind_eq_some_iff.mpr ⟨d, ?_, hpoints⟩
      rw [← hd]
      refine walk_congr fun j hj _ => ?_
      exact (preSigStep_set sPi (by omega)).symm
    · exact bind_eq_some_iff.mpr ⟨d', hwalked.start ▸ hd', hpoints'⟩

end Assembled

end Closing

section Adversary

variable {curve : Secp256k1 F E} {ring : List MultiLayerMember} {pi : ℕ} {m : MultiLayerMember}
variable {msg : Uint256}

/-- Two points have one logarithm, with respect to `G` and to the hash of a key. -/
def HasCommonLog (curve : Secp256k1 F E) (P : Point) (points : AdaptorPoints) : Prop :=
  ∃ Hp hp, curve.hashToPoint P.toList = some Hp ∧ curve.parsePoint Hp = some hp ∧
    ∃ a : F, curve.parsePoint points.TG = some (a • curve.G) ∧
      curve.parsePoint points.TH = some (a • hp)

/-- The points, proofs and labels that are checked for one party. -/
def shareProofs (X Z : Point) (share : AdaptorNonceShareML) :
    List (AdaptorPoints × DLEQProof × List UInt8) :=
  [(⟨share.LShare, share.RShare⟩, share.dleqAlpha, alphaLabel),
    (⟨X, share.KIShare⟩, share.dleqX, xLabel), (⟨Z, share.DShare⟩, share.dleqZ, zLabel)]

/-- The points, proofs and labels that are checked in a combination. -/
def checkedProofs (adaptor : AdaptorPoints) (dleqT : DLEQProof) (XPubShares ZPubShares : List Point)
    (shares : List AdaptorNonceShareML) (sessionLabel : List UInt8) :
    List (AdaptorPoints × DLEQProof × List UInt8) :=
  (adaptor, dleqT, sessionLabel) ::
    (XPubShares.zip (ZPubShares.zip shares)).flatMap fun q => shareProofs q.1 q.2.1 q.2.2

theorem verifyDLEQProof_of_share {P X Z : Point} {share : AdaptorNonceShareML}
    (h : verifyAdaptorNonceShareML curve P X Z share adaptor sessionLabel sessionPayload = true) :
    ∀ q ∈ shareProofs X Z share,
      verifyDLEQProof curve P q.1 q.2.1 q.2.2 sessionPayload = true := by
  simp only [verifyAdaptorNonceShareML, Bool.and_eq_true] at h
  obtain ⟨⟨⟨halpha, hx⟩, hz⟩, -⟩ := h
  simp only [shareProofs, forall_mem_cons]
  exact ⟨halpha, hx, hz, forall_mem_nil _⟩

variable
  (h : combineAndWalkML curve ring pi msg adaptor dleqT XPubShares ZPubShares shares sessionLabel
    sessionPayload = some combined) (hm : ring[pi]? = some m)
  (hsound : ∀ q ∈ checkedProofs adaptor dleqT XPubShares ZPubShares shares sessionLabel,
    verifyDLEQProof curve m.P q.1 q.2.1 q.2.2 sessionPayload = true → HasCommonLog curve m.P q.1)
include h hm hsound

/-- Whatever the shares are, what is combined from them is consistent if no false proof was
accepted on the way. -/
theorem consistent_of_sound :
    ∃ hp p w α t, Consistent curve m adaptor combined hp p w α t := by
  obtain ⟨m', hm', hX, hZ, hdleq, hshares, h⟩ := combineAndWalkML_eq_some h
  obtain rfl := some.inj (hm.symm.trans hm')
  obtain ⟨Hp, hp, hHp, hhp, t, hTG, hTH⟩ := hsound _ mem_cons_self hdleq
  have hlog : ∀ q ∈ XPubShares.zip (ZPubShares.zip shares), ∀ proof ∈ shareProofs q.1 q.2.1 q.2.2,
      ∃ a : F, curve.parsePoint proof.1.TG = some (a • curve.G) ∧
        curve.parsePoint proof.1.TH = some (a • hp) := by
    intro q hq proof hproof
    obtain ⟨Hp', hp', hHp', hhp', hcommon⟩ := hsound proof
      (mem_cons_of_mem _ (mem_flatMap.mpr ⟨q, hq, hproof⟩))
      (verifyDLEQProof_of_share (hshares q hq) proof hproof)
    obtain rfl := some.inj (hHp.symm.trans hHp')
    obtain rfl := some.inj (hhp.symm.trans hhp')
    exact hcommon
  choose! ν hν using fun q hq => hlog q hq _ mem_cons_self
  choose! ξ hξ using fun q hq => hlog q hq _ (mem_cons_of_mem _ mem_cons_self)
  choose! ζ hζ using fun q hq =>
    hlog q hq _ (mem_cons_of_mem _ (mem_cons_of_mem _ mem_cons_self))
  obtain ⟨hXs, hZs, hSs⟩ := map_zip_zip hX hZ
  have hparties : combineChecked curve ring pi m msg adaptor
      ((XPubShares.zip (ZPubShares.zip shares)).map (·.1))
      ((XPubShares.zip (ZPubShares.zip shares)).map (·.2.1))
      ((XPubShares.zip (ZPubShares.zip shares)).map (·.2.2)) sessionLabel sessionPayload =
        some combined := by
    rw [hXs, hZs, hSs, h]
  exact ⟨hp, _, _, _, t, consistent_of_logs hparties ⟨Hp, hHp, hhp⟩ hTG hTH hξ hζ hν⟩

/-- With proofs that are sound, no shares of others can make what is combined inconsistent, and the
assembled pre-signature is accepted exactly if the responses have the right sum, up to a coincidence
of challenges. -/
theorem adversarial_shares_consistent :
    ∃ hp p w α t, Consistent curve m adaptor combined hp p w α t ∧
      ∀ closeShares presig,
        assembleAdaptorPreSigML curve combined closeShares pi adaptor dleqT = some presig →
        ((closeShares.map curve.value).sum = α - curve.value combined.cPi *
            (curve.value combined.muP * p + curve.value combined.muC * w) →
          verifyMultiLayerPreSig curve ring presig.signature msg pi adaptor.TG adaptor.TH =
            true) ∧
        (verifyMultiLayerPreSig curve ring presig.signature msg pi adaptor.TG adaptor.TH = true →
          (closeShares.map curve.value).sum = α - curve.value combined.cPi *
            (curve.value combined.muP * p + curve.value combined.muC * w) ∨
          Coincidence curve ring pi msg combined presig) := by
  obtain ⟨hp, p, w, α, t, hcons⟩ := consistent_of_sound h hm hsound
  obtain ⟨m', hm', -, -, -, -, h⟩ := combineAndWalkML_eq_some h
  obtain ⟨-, -, -, -, -, -, -, -, st, first, c, hwalked⟩ := combineChecked_eq_some h
  refine ⟨hp, p, w, α, t, hcons, fun closeShares presig hassemble => ⟨fun hsum => ?_, ?_⟩⟩
  · exact verifies_of_sum hwalked hm hcons hassemble hsum
  · exact sum_of_verifies hwalked hm hcons hassemble

end Adversary

section Honest

variable {curve : Secp256k1 F E} {ring : List MultiLayerMember} {pi : ℕ} {m : MultiLayerMember}
variable {msg : Uint256}

omit [DecidableEq E] in
theorem logs_of_scalarMult {s : Scalar} {Hp A B : Point} {hp : E}
    (hhp : curve.parsePoint Hp = some hp) (hA : curve.scalarMultG s = some A)
    (hB : curve.scalarMultPoint s Hp = some B) :
    curve.parsePoint A = some (curve.value s • curve.G) ∧
      curve.parsePoint B = some (curve.value s • hp) := by
  obtain ⟨a, ha, hA⟩ := scalarMultG_eq_some.mp hA
  rw [scalarMultPoint_iff ha hhp] at hB
  rw [value_of_seckey ha]
  exact ⟨hA, hB⟩

omit [DecidableEq E] in
/-- The points of an honest share are multiples of both bases by the same secrets. -/
theorem nonceGenAdaptorML_eq_some {P X Z Hp : Point} {x z : Scalar}
    {alpha rAlpha rX rZ : Seckey curve} {share : AdaptorNonceShareML} {hp : E}
    (hHp : curve.hashToPoint P.toList = some Hp) (hhp : curve.parsePoint Hp = some hp)
    (h : nonceGenAdaptorML curve P X Z x z adaptor sessionLabel sessionPayload alpha rAlpha rX rZ =
      some share) :
    (curve.parsePoint X = some (curve.value x • curve.G) ∧
        curve.parsePoint share.KIShare = some (curve.value x • hp)) ∧
      (curve.parsePoint Z = some (curve.value z • curve.G) ∧
        curve.parsePoint share.DShare = some (curve.value z • hp)) ∧
      curve.parsePoint share.LShare = some (curve.value share.alpha • curve.G) ∧
        curve.parsePoint share.RShare = some (curve.value share.alpha • hp) := by
  unfold nonceGenAdaptorML at h
  split at h
  · contradiction
  · split at h
    · contradiction
    · rename_i hpublic
      rw [not_or, not_not, not_not] at hpublic
      obtain ⟨hX, hZ⟩ := hpublic
      obtain ⟨L, hL, h⟩ := bind_eq_some_iff.mp h
      obtain ⟨Hp', hHp', h⟩ := bind_eq_some_iff.mp h
      obtain ⟨R, hR, h⟩ := bind_eq_some_iff.mp h
      obtain ⟨KI, hKI, h⟩ := bind_eq_some_iff.mp h
      obtain ⟨D, hD, h⟩ := bind_eq_some_iff.mp h
      obtain ⟨dleqAlpha, -, h⟩ := bind_eq_some_iff.mp h
      obtain ⟨dleqX, -, h⟩ := bind_eq_some_iff.mp h
      obtain ⟨dleqZ, -, h⟩ := bind_eq_some_iff.mp h
      obtain ⟨commitment, -, hshare⟩ := bind_eq_some_iff.mp h
      obtain rfl := some.inj (hHp.symm.trans hHp')
      obtain rfl := some.inj hshare
      exact ⟨logs_of_scalarMult hhp hX hKI, logs_of_scalarMult hhp hZ hD,
        logs_of_scalarMult hhp hL hR⟩

omit [DecidableEq E] in
theorem value_of_closeShare {alpha cPi muP muC x z s : Scalar}
    (h : cooperativeCloseShareAdaptorML curve alpha cPi muP muC x z = some s) :
    curve.value s = curve.value alpha - curve.value cPi *
      (curve.value muP * curve.value x + curve.value muC * curve.value z) := by
  unfold cooperativeCloseShareAdaptorML at h
  split at h
  · contradiction
  · obtain ⟨a, ha, h⟩ := bind_eq_some_iff.mp h
    obtain ⟨ξ, ζ, μP, μC, hξ, hζ, hμP, hμC, ha⟩ := aggregateScalar_eq_some.mp ha
    obtain ⟨α, γ, κ, hα, hγ, hκ, hs⟩ := seckey_of_closeShare h
    obtain rfl := some.inj (ha.symm.trans hκ)
    rw [value_of_seckey hs, value_of_seckey hα, value_of_seckey hγ, value_of_seckey hμP,
      value_of_seckey hμC, value_of_seckey hξ, value_of_seckey hζ, mul_comm ξ, mul_comm ζ]

omit [AddCommGroup E] [Module F E] [DecidableEq F] [DecidableEq E] in
theorem sum_responses {ι : Type} (parties : List ι) (ν ξ ζ : ι → F) (γ μP μC : F) :
    (parties.map fun q => ν q - γ * (μP * ξ q + μC * ζ q)).sum =
      (parties.map ν).sum - γ * (μP * (parties.map ξ).sum + μC * (parties.map ζ).sum) := by
  induction parties with
  | nil => simp
  | cons q parties ih =>
    simp only [map_cons, sum_cons, ih]
    ring

/-- Honest shares are combined consistently, with the sums of the parties' secrets. -/
theorem consistent_of_honest {t : Scalar} {parties : List (Party curve)}
    {shares : List AdaptorNonceShareML} {combined : AdaptorCombineOutputML}
    (hm : ring[pi]? = some m) (hadaptor : computeAdaptorPoints curve t m.P = some adaptor)
    (hshares : parties.mapM (fun q => nonceGenAdaptorML curve m.P q.X q.Z q.x q.z adaptor
      sessionLabel sessionPayload q.alpha q.rAlpha q.rX q.rZ) = some shares)
    (hcombined : combineAndWalkML curve ring pi msg adaptor dleqT (parties.map (·.X))
      (parties.map (·.Z)) shares sessionLabel sessionPayload = some combined) :
    ∃ hp, Consistent curve m adaptor combined hp
      ((parties.zip shares).map fun q => curve.value q.1.x).sum
      ((parties.zip shares).map fun q => curve.value q.1.z).sum
      ((parties.zip shares).map fun q => curve.value q.2.alpha).sum (curve.value t) := by
  obtain ⟨m', hm', -, -, -, -, hchecked⟩ := combineAndWalkML_eq_some hcombined
  obtain rfl := some.inj (hm.symm.trans hm')
  obtain ⟨Hp, hHp, hTG, hTH⟩ := computeAdaptorPoints_eq_some.mp hadaptor
  obtain ⟨hp, hhp⟩ := parse_of_hashToPoint hHp
  obtain ⟨hTG, hTH⟩ := logs_of_scalarMult hhp hTG hTH
  obtain ⟨hlength, hgen⟩ := forall_zip_of_mapM hshares
  have hparties : (parties.zip shares).map Prod.fst = parties := map_fst_zip (by omega)
  have hall : (parties.zip shares).map Prod.snd = shares := map_snd_zip (by omega)
  have hzip : combineChecked curve ring pi m msg adaptor ((parties.zip shares).map (·.1.X))
      ((parties.zip shares).map (·.1.Z)) ((parties.zip shares).map Prod.snd) sessionLabel
      sessionPayload = some combined := by
    rw [← hparties, List.map_map, List.map_map] at hchecked
    rw [hall]
    exact hchecked
  have hlogs := fun q hq => nonceGenAdaptorML_eq_some hHp hhp (hgen q hq)
  exact ⟨hp, consistent_of_logs hzip ⟨Hp, hHp, hhp⟩ hTG hTH (fun q hq => (hlogs q hq).1)
    (fun q hq => (hlogs q hq).2.1) fun q hq => (hlogs q hq).2.2⟩

/-- Whenever all parties come to the end of an honest run, the pre-signature is accepted. Where its
adapted response is zero, adapting it gives nothing. Otherwise it gives an accepted signature with
the key image of the sum of the secrets, from which the adaptor secret is extracted. -/
theorem cooperative_preSignature_adapts {t : Scalar} {parties : List (Party curve)}
    {presig : AdaptorPreSignature} (hpi : pi < 2 ^ 32) (hm : ring[pi]? = some m)
    (hadaptor : computeAdaptorPoints curve t m.P = some adaptor)
    (h : cooperativePreSign curve ring pi msg adaptor dleqT parties sessionLabel sessionPayload =
      some presig) :
    verifyMultiLayerPreSig curve ring presig.signature msg pi adaptor.TG adaptor.TH = true ∧
      ∃ pre, presig.s[pi]? = some pre ∧
      (curve.value pre + curve.value t = 0 → adaptML curve presig t ring msg = none) ∧
      (curve.value pre + curve.value t ≠ 0 → ∃ sig Hp hp,
        adaptML curve presig t ring msg = some sig ∧
        verifyMultiLayer curve ring sig msg = true ∧
        curve.hashToPoint m.P.toList = some Hp ∧ curve.parsePoint Hp = some hp ∧
        curve.parsePoint sig.keyImage =
          some ((parties.map fun q => curve.value q.x).sum • hp) ∧
        extract curve (ring.map (·.P)) presig sig = some t) := by
  obtain ⟨m', hm', h⟩ := bind_eq_some_iff.mp h
  obtain rfl := some.inj (hm.symm.trans hm')
  obtain ⟨shares, hshares, h⟩ := bind_eq_some_iff.mp h
  obtain ⟨combined, hcombined, h⟩ := bind_eq_some_iff.mp h
  obtain ⟨closeShares, hclose, hassemble⟩ := bind_eq_some_iff.mp h
  obtain ⟨hp, hcons⟩ := consistent_of_honest hm hadaptor hshares hcombined
  obtain ⟨m', hm', -, -, -, -, hchecked⟩ := combineAndWalkML_eq_some hcombined
  obtain ⟨-, -, -, -, -, -, -, -, st, first, c, hwalked⟩ := combineChecked_eq_some hchecked
  -- the responses have the sum that closes the ring
  have hvalues := map_of_mapM hclose fun q _ s hs => value_of_closeShare hs
  have hsum : (closeShares.map curve.value).sum = _ :=
    (congrArg List.sum hvalues).trans (sum_responses (parties.zip shares) _ _ _ _ _ _)
  have hverify := verifies_of_sum hwalked hm hcons hassemble hsum
  refine ⟨hverify, ?_⟩
  obtain ⟨sPi, -, hpresig⟩ := assembleAdaptorPreSigML_eq_some hassemble
  have hindex : presig.pi.toNat = pi := by
    rw [hpresig]
    exact UInt32.toNat_ofNat_of_lt hpi
  have hpoints : presig.adaptor = adaptor := by rw [hpresig]
  have himage : presig.keyImage = combined.KI := by rw [hpresig]
  obtain ⟨pre, σ, τ, hpre, hσ, hτ, hcases⟩ := adapts_of_accepted
    (by rw [hindex, hpoints]; exact hverify) (hindex.symm ▸ hm) (hpoints.symm ▸ hadaptor)
  refine ⟨pre, hindex ▸ hpre, ?_⟩
  rw [value_of_seckey hσ, value_of_seckey hτ]
  refine ⟨adaptML_eq_none hpre hσ hτ, fun hne => ?_⟩
  rcases hcases with hzero | ⟨u, -, hadapted, hadapt, hextract⟩
  · exact absurd hzero hne
  · obtain ⟨Hp, hHp, hhp⟩ := hcons.base
    refine ⟨_, Hp, hp, hadapt, hadapted, hHp, hhp, ?_, hextract⟩
    have hparties : (parties.zip shares).map Prod.fst = parties :=
      map_fst_zip (Nat.le_of_eq (forall_zip_of_mapM hshares).1.symm)
    have himages := hcons.keyImage
    rw [← himage] at himages
    rw [← hparties, List.map_map]
    exact himages

end Honest

section Sample

/-- A proof for the adaptor points of the secret 1. -/
def sampleProof : DLEQProof := ⟨samplePoint 1, samplePoint 6, sampleScalar 5⟩

/-- The secrets 3 and 4 in two parts. The nonce of the second party is left open. -/
def sampleParties (alpha : Seckey sampleCurve) : List (Party sampleCurve) :=
  [⟨sampleScalar 1, sampleScalar 1, samplePoint 1, samplePoint 1, sampleKey 0, sampleKey 0,
      sampleKey 0, sampleKey 0⟩,
    ⟨sampleScalar 2, sampleScalar 3, samplePoint 2, samplePoint 3, alpha, sampleKey 0, sampleKey 0,
      sampleKey 0⟩]

def samplePreSigned (alpha : Seckey sampleCurve) : Option AdaptorPreSignature :=
  cooperativePreSign sampleCurve sampleRing 1 sampleMessage sampleAdaptor sampleProof
    (sampleParties alpha) [2] [2]

theorem cooperative_preSignature_adapts_sample :
    ∃ presig sig, samplePreSigned (sampleKey 2) = some presig ∧
      verifyMultiLayerPreSig sampleCurve sampleRing presig.signature sampleMessage 1
        sampleAdaptor.TG sampleAdaptor.TH = true ∧
      adaptML sampleCurve presig (sampleScalar 1) sampleRing sampleMessage = some sig ∧
      verifyMultiLayer sampleCurve sampleRing sig sampleMessage = true ∧
      extract sampleCurve (sampleRing.map (·.P)) presig sig = some (sampleScalar 1) := by
  have hresponse : (samplePreSigned (sampleKey 2)).bind (·.s[1]?) = some (sampleScalar 1) := by
    decide +kernel
  obtain ⟨presig, hpresig, hs⟩ := bind_eq_some_iff.mp hresponse
  obtain ⟨hverify, pre, hpre, -, hadapts⟩ := cooperative_preSignature_adapts (by decide)
    (show sampleRing[1]? = some ⟨samplePoint 3, samplePoint 4⟩ from rfl) sampleAdaptor_eq hpresig
  obtain rfl := some.inj (hs.symm.trans hpre)
  obtain ⟨sig, _, _, hadapt, hadapted, -, -, -, hextract⟩ := hadapts (by decide +kernel)
  exact ⟨presig, sig, hpresig, hverify, hadapt, hadapted, hextract⟩

/-- The two parties' responses add up to 6, so that adding the secret 1 gives zero. -/
theorem adapted_response_vanishes :
    ∃ presig, computeAdaptorPoints sampleCurve (sampleScalar 1) (samplePoint 3) =
        some sampleAdaptor ∧ samplePreSigned (sampleKey 0) = some presig ∧
      presig.s[1]? = some (sampleScalar 6) ∧
      adaptML sampleCurve presig (sampleScalar 1) sampleRing sampleMessage = none := by
  have hrun : (samplePreSigned (sampleKey 0)).map (fun presig => (presig.s[1]?,
      (adaptML sampleCurve presig (sampleScalar 1) sampleRing sampleMessage).isNone)) =
        some (some (sampleScalar 6), true) := by
    decide +kernel
  obtain ⟨presig, hpresig, hresult⟩ := map_eq_some_iff.mp hrun
  obtain ⟨hs, hnone⟩ := Prod.mk.inj hresult
  exact ⟨presig, sampleAdaptor_eq, hpresig, hs, isNone_iff_eq_none.mp hnone⟩

/-- The share of a party with a nonce and two secrets, and the responses of its proofs. -/
def sampleShare (alpha x z : ℕ) (responses : ℕ × ℕ × ℕ) (commitment : ℕ) :
    AdaptorNonceShareML where
  alpha := sampleScalar alpha
  LShare := samplePoint alpha
  RShare := samplePoint (6 * alpha % 7)
  KIShare := samplePoint (6 * x % 7)
  DShare := samplePoint (6 * z % 7)
  dleqAlpha := ⟨samplePoint 1, samplePoint 6, sampleScalar responses.1⟩
  dleqX := ⟨samplePoint 1, samplePoint 6, sampleScalar responses.2.1⟩
  dleqZ := ⟨samplePoint 1, samplePoint 6, sampleScalar responses.2.2⟩
  commitment := sampleScalar commitment

/-- The shares of two parties, with the secrets 3 and 4 and the nonce 4 in sum. -/
def sampleShares : List AdaptorNonceShareML :=
  [sampleShare 1 1 1 (5, 3, 5) 4, sampleShare 3 2 3 (6, 5, 6) 5]

def sampleCombined : AdaptorCombineOutputML where
  KI := samplePoint 4
  D := samplePoint 3
  LPi := samplePoint 4
  RPi := samplePoint 3
  LPrime := samplePoint 5
  RPrime := samplePoint 2
  muP := sampleScalar 3
  muC := sampleScalar 2
  cPi := sampleScalar 1
  c0 := sampleScalar 6
  sOthers := [sampleScalar 4, zeroScalar, sampleScalar 6]

theorem adversarial_shares_consistent_sample :
    combineAndWalkML sampleCurve sampleRing 1 sampleMessage sampleAdaptor sampleProof
        [samplePoint 1, samplePoint 2] [samplePoint 1, samplePoint 3] sampleShares [2] [2] =
          some sampleCombined ∧
      (∃ hp, Consistent sampleCurve ⟨samplePoint 3, samplePoint 4⟩ sampleAdaptor sampleCombined hp
        3 4 4 1) ∧
      ∃ presig, assembleAdaptorPreSigML sampleCurve sampleCombined [sampleScalar 3, sampleScalar 5]
          1 sampleAdaptor sampleProof = some presig ∧
        verifyMultiLayerPreSig sampleCurve sampleRing presig.signature sampleMessage 1
          sampleAdaptor.TG sampleAdaptor.TH = true := by
  have hcombine : combineAndWalkML sampleCurve sampleRing 1 sampleMessage sampleAdaptor sampleProof
      [samplePoint 1, samplePoint 2] [samplePoint 1, samplePoint 3] sampleShares [2] [2] =
        some sampleCombined := by
    decide +kernel
  have hlogs : ∀ q ∈ checkedProofs sampleAdaptor sampleProof [samplePoint 1, samplePoint 2]
      [samplePoint 1, samplePoint 3] sampleShares [2], ∃ a : ZMod 7,
        sampleCurve.parsePoint q.1.TG = some (a • sampleCurve.G) ∧
        sampleCurve.parsePoint q.1.TH = some (a • (6 : ZMod 7)) := by
    decide +kernel
  obtain ⟨hp, p, w, α, t, hcons, hclose⟩ := adversarial_shares_consistent hcombine
    (show sampleRing[1]? = some ⟨samplePoint 3, samplePoint 4⟩ from rfl)
    fun q hq _ => ⟨samplePoint 6, 6, by decide +kernel, by decide +kernel, hlogs q hq⟩
  have hlog : ∀ {b : Point} {a k : ZMod 7}, sampleCurve.parsePoint b = some (a • sampleCurve.G) →
      sampleCurve.parsePoint b = some (k • sampleCurve.G) → a = k :=
    fun ha hk => smul_generator_inj.mp (some.inj (ha.symm.trans hk))
  obtain rfl : p = 3 := hlog hcons.spendKey (by decide +kernel)
  obtain rfl : w = 4 := hlog hcons.offset (by decide +kernel)
  obtain rfl : α = 4 := hlog hcons.nonceL (by decide +kernel)
  obtain rfl : t = 1 := hlog hcons.adaptorG (by decide +kernel)
  have hsome : (assembleAdaptorPreSigML sampleCurve sampleCombined [sampleScalar 3, sampleScalar 5]
      1 sampleAdaptor sampleProof).isSome = true := by
    decide +kernel
  obtain ⟨presig, hpresig⟩ := isSome_iff_exists.mp hsome
  exact ⟨hcombine, ⟨hp, hcons⟩, presig, hpresig, (hclose _ presig hpresig).1 (by decide +kernel)⟩

end Sample

end Pricoin.AdaptorJointRingSig
