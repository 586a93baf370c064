import Mathlib.Tactic.Ring
import Pricoin.RingSig

/-!
Ring signatures made by several parties, each with a share of the two secrets. The
parties add up their images and nonce points, walk the ring from the sums with one
list of responses for the other members, and close it with the sum of their own
responses. With two parties the signature is the one that a single signer makes
with the sums of their secrets and of their nonces. The hashes and the weighted sums
are the single signer's, of which the code has a second copy.
-/
namespace Pricoin.JointRingSig

open ByteStreams KeyImageFile Transactions CurveBytes CurveBytes.Secp256k1 RingWalks RingSig
open List Option

variable {F E : Type} [Field F] [AddCommGroup E] [Module F E] [DecidableEq F] [DecidableEq E]
  {s x z a : Scalar} {P KI D : Point} {mu : Mu}

structure NoncePartial where
  alpha : Scalar
  LShare : Point
  RShare : Point

structure MultiLayerImageShares where
  KIShare : Point
  DShare : Point

structure WalkOutput where
  cPi : Scalar
  c0 : Scalar

section Code

variable (curve : Secp256k1 F E)

def computeMuInternal (ring : List MultiLayerMember) (KI D : Point) : Option Mu := do
  let mu ← multiLayerMu curve ring KI D
  if curve.seckeyVerify mu.muP && curve.seckeyVerify mu.muC then some mu else none

/-- The library calls are those of the single signer, in another order. -/
def computeLML (s c : Scalar) (T : Point) : Option Point := do
  let sG ← curve.pubkeyCreate s
  let T ← curve.parsePoint T
  let cT ← curve.pubkeyTweakMul T c
  let sum ← curve.pubkeyCombine [sG, cT]
  some (curve.serializePoint sum)

def computeRML (s c : Scalar) (P iAgg : Point) : Option Point := do
  let Hp ← curve.hashToPoint P.toList
  linCombSQPlusCR curve s Hp c iAgg

def nonceGen (P : Point) (alpha : Seckey curve) : Option NoncePartial := do
  let _ ← curve.parsePoint P
  let L ← curve.scalarMultG alpha.1
  let Hp ← curve.hashToPoint P.toList
  let R ← curve.scalarMultPoint alpha.1 Hp
  some ⟨alpha.1, L, R⟩

def combinePoints (shares : List Point) : Option Point :=
  if shares = [] then none
  else do
    let parsed ← shares.mapM curve.parsePoint
    let sum ← curve.pubkeyCombine parsed
    some (curve.serializePoint sum)

/-- One turn of the sum of responses. -/
def addShare (acc share : Scalar) : Option Scalar :=
  if curve.seckeyVerify share = false then none else curve.seckeyTweakAdd acc share

def combineScalars : List Scalar → Option Scalar
  | [] => none
  | first :: shares =>
    if curve.seckeyVerify first = false then none
    else do
      let acc ← shares.foldlM (addShare curve) first
      if curve.seckeyVerify acc then some acc else none

def closeShare (alpha cPi x : Scalar) : Option Scalar :=
  if curve.seckeyVerify alpha = false ∨ curve.seckeyVerify cPi = false ∨
      curve.seckeyVerify x = false then none
  else do
    let prod ← curve.seckeyTweakMul cPi x
    let neg ← curve.seckeyNegate prod
    let sShare ← curve.seckeyTweakAdd alpha neg
    if curve.seckeyVerify sShare then some sShare else none

def kiCommitImageShare (P : Point) (x z : Scalar) : Option MultiLayerImageShares :=
  if curve.seckeyVerify x = false ∨ curve.seckeyVerify z = false then none
  else do
    let Hp ← curve.hashToPoint P.toList
    let KI ← curve.scalarMultPoint x Hp
    let D ← curve.scalarMultPoint z Hp
    some ⟨KI, D⟩

/-- A ring member that is not two points. -/
def malformed (m : MultiLayerMember) : Bool :=
  (curve.parsePoint m.P).isNone || (curve.parsePoint m.W).isNone

def computeMu (ring : List MultiLayerMember) (KI D : Point) : Option Mu :=
  if ring = [] ∨ malformed curve ⟨KI, D⟩ ∨ ring.any (malformed curve) then none
  else computeMuInternal curve ring KI D

def aggregateShare (mu : Mu) (x z : Scalar) : Option Scalar :=
  if curve.seckeyVerify mu.muP = false ∨ curve.seckeyVerify mu.muC = false ∨
      curve.seckeyVerify x = false ∨ curve.seckeyVerify z = false then none
  else aggregateScalar curve x z mu

/-- The weights and the weighted sums, as the walk computes them again. -/
def jointStatement (ring : List MultiLayerMember) (KI D : Point) : Option Statement := do
  let mu ← computeMuInternal curve ring KI D
  let T ← ring.mapM (aggregateMember curve mu)
  let iAgg ← aggregateMember curve mu ⟨KI, D⟩
  some ⟨ring, KI, D, mu, T, iAgg⟩

def walkStep (st : Statement) (msg : Uint256) (sOthers : List Scalar) (i : ℕ) (c : Scalar) :
    Option Scalar := do
  let m ← st.ring[i]?
  let t ← st.T[i]?
  let s ← sOthers[i]?
  if curve.seckeyVerify s = false then none
  else do
    let L ← computeLML curve s c t
    let R ← computeRML curve s c m.P st.iAgg
    stepChallengeML curve st.ring msg L R st.KI st.D

def walkRingMultiLayer (ring : List MultiLayerMember) (pi : ℕ) (msg : Uint256)
    (KI D L R : Point) (sOthers : List Scalar) : Option WalkOutput :=
  if ring.length ≤ pi ∨ sOthers.length ≠ ring.length ∨ hasDuplicateMembers ring then none
  else if malformed curve ⟨KI, D⟩ ∨ malformed curve ⟨L, R⟩ ∨ ring.any (malformed curve) then none
  else do
    let st ← jointStatement curve ring KI D
    let first ← stepChallengeML curve ring msg L R KI D
    let c ← fillFrom (walkStep curve st msg sOthers) ring.length pi first fun _ => zeroScalar
    some ⟨c pi, c 0⟩

/-- The random responses of the other members, with none yet at the signer's position. -/
def othersList (N pi : ℕ) (decoys : ℕ → Seckey curve) : List Scalar :=
  (List.range N).map fun i => if i = pi then zeroScalar else (decoys i).1

def cooperativeSignTwoPartyML (ring : List MultiLayerMember) (pi : ℕ) (xA xB zA zB : Scalar)
    (msg : Uint256) (alphaA alphaB : Seckey curve) (decoys : ℕ → Seckey curve) :
    Option Signature := do
  let m ← ring[pi]?
  let nonceA ← nonceGen curve m.P alphaA
  let nonceB ← nonceGen curve m.P alphaB
  let imagesA ← kiCommitImageShare curve m.P xA zA
  let imagesB ← kiCommitImageShare curve m.P xB zB
  let KI ← combinePoints curve [imagesA.KIShare, imagesB.KIShare]
  let D ← combinePoints curve [imagesA.DShare, imagesB.DShare]
  let L ← combinePoints curve [nonceA.LShare, nonceB.LShare]
  let R ← combinePoints curve [nonceA.RShare, nonceB.RShare]
  let mu ← computeMu curve ring KI D
  let aA ← aggregateShare curve mu xA zA
  let aB ← aggregateShare curve mu xB zB
  let sOthers := othersList curve ring.length pi decoys
  let walk ← walkRingMultiLayer curve ring pi msg KI D L R sOthers
  let shareA ← closeShare curve nonceA.alpha walk.cPi aA
  let shareB ← closeShare curve nonceB.alpha walk.cPi aB
  let sPi ← combineScalars curve [shareA, shareB]
  some ⟨KI, D, walk.c0, sOthers.set pi sPi⟩

end Code

section Specifications

variable {curve : Secp256k1 F E}

omit [DecidableEq E] in
theorem computeMuInternal_eq (ring : List MultiLayerMember) (KI D : Point) :
    computeMuInternal curve ring KI D = multiLayerMu curve ring KI D := by
  unfold computeMuInternal
  cases hmu : multiLayerMu curve ring KI D with
  | none => rfl
  | some mu =>
    obtain ⟨hP, hC⟩ := seckey_of_multiLayerMu hmu
    exact if_pos (Bool.and_eq_true_iff.mpr ⟨seckeyVerify_iff.mpr hP, seckeyVerify_iff.mpr hC⟩)

theorem jointStatement_eq (ring : List MultiLayerMember) (KI D : Point) :
    jointStatement curve ring KI D = aggregate curve ring KI D := by
  rw [jointStatement, computeMuInternal_eq, aggregate]

theorem computeLML_eq (s c : Scalar) (T : Point) :
    computeLML curve s c T = (curve.parsePoint T).bind (linCombSGPlusCP curve s c) := by
  unfold computeLML linCombSGPlusCP
  cases curve.pubkeyCreate s with
  | none => cases curve.parsePoint T <;> rfl
  | some sG => rfl

/-- The parties walk the ring as the single signer does. -/
theorem walkStep_eq (st : Statement) (msg : Uint256) (sOthers : List Scalar) :
    walkStep curve st msg sOthers = ringStep curve st msg sOthers := by
  funext i c
  unfold walkStep ringStep ringPoints
  cases st.ring[i]? with
  | none => rfl
  | some m =>
    cases st.T[i]? with
    | none => rfl
    | some t =>
      cases sOthers[i]? with
      | none => rfl
      | some s =>
        simp only [bind_eq_bind, bind_some, computeLML_eq, computeRML,
          bind_assoc]
        split
        · rename_i hinvalid
          have hnone : curve.pubkeyCreate s = none := by
            rw [pubkeyCreate, seckeyVerify_eq_false.mp hinvalid, map_none]
          cases curve.parsePoint t with
          | none => rfl
          | some T => simp only [bind_some, linCombSGPlusCP, hnone]; rfl
        · rfl

omit [DecidableEq F] in
theorem combinePoints_pair (a b : Point) :
    combinePoints curve [a, b] = curve.addPoints a b := by
  simp only [combinePoints, addPoints, if_neg (cons_ne_nil a [b]), mapM_cons,
    mapM_nil, bind_eq_bind, bind_assoc]
  rfl

omit [DecidableEq E] in
theorem seckey_of_foldlM_addShare {shares : List Scalar} {acc : Scalar} {α : F}
    (hacc : curve.seckey acc = some α) (h : shares.foldlM (addShare curve) acc = some s) :
    curve.seckey s = some (α + (shares.map curve.value).sum) := by
  induction shares generalizing acc α with
  | nil =>
    obtain rfl : acc = s := some.inj h
    rw [map_nil, sum_nil, add_zero, hacc]
  | cons share shares ih =>
    rw [foldlM_cons] at h
    obtain ⟨next, hnext, h⟩ := bind_eq_some_iff.mp h
    unfold addShare at hnext
    split at hnext
    · contradiction
    · rename_i hverify
      obtain ⟨β, hβ⟩ := seckey_of_not_false hverify
      rw [seckeyTweakAdd_iff hacc (parseScalar_of_seckey hβ)] at hnext
      rw [ih hnext h, map_cons, sum_cons, value_of_seckey hβ, add_assoc]

omit [DecidableEq E] in
/-- The responses add up to the one that is put in the signature. -/
theorem seckey_of_combineScalars {shares : List Scalar} (h : combineScalars curve shares = some s) :
    curve.seckey s = some (shares.map curve.value).sum := by
  cases shares with
  | nil => contradiction
  | cons first shares =>
    rw [combineScalars] at h
    split at h
    · contradiction
    · rename_i hverify
      obtain ⟨α, hα⟩ := seckey_of_not_false hverify
      obtain ⟨acc, hacc, h⟩ := bind_eq_some_iff.mp h
      split at h
      · obtain rfl := some.inj h
        rw [seckey_of_foldlM_addShare hα hacc, map_cons, sum_cons, value_of_seckey hα]
      · contradiction

omit [DecidableEq E] in
theorem nonceGen_eq_some {alpha : Seckey curve} {nonce : NoncePartial}
    (h : nonceGen curve P alpha = some nonce) : nonce.alpha = alpha.1 ∧
      curve.scalarMultG alpha.1 = some nonce.LShare ∧
      ∃ Hp, curve.hashToPoint P.toList = some Hp ∧
        curve.scalarMultPoint alpha.1 Hp = some nonce.RShare := by
  obtain ⟨p, -, h⟩ := bind_eq_some_iff.mp h
  obtain ⟨L, hL, h⟩ := bind_eq_some_iff.mp h
  obtain ⟨Hp, hHp, h⟩ := bind_eq_some_iff.mp h
  obtain ⟨R, hR, h⟩ := bind_eq_some_iff.mp h
  obtain rfl := some.inj h
  exact ⟨rfl, hL, Hp, hHp, hR⟩

omit [DecidableEq E] in
theorem kiCommitImageShare_eq_some {images : MultiLayerImageShares}
    (h : kiCommitImageShare curve P x z = some images) :
    ∃ Hp, curve.hashToPoint P.toList = some Hp ∧
      curve.scalarMultPoint x Hp = some images.KIShare ∧
      curve.scalarMultPoint z Hp = some images.DShare := by
  unfold kiCommitImageShare at h
  split at h
  · contradiction
  · obtain ⟨Hp, hHp, h⟩ := bind_eq_some_iff.mp h
    obtain ⟨KI, hKI, h⟩ := bind_eq_some_iff.mp h
    obtain ⟨D, hD, h⟩ := bind_eq_some_iff.mp h
    obtain rfl := some.inj h
    exact ⟨Hp, hHp, hKI, hD⟩

omit [DecidableEq E] in
theorem multiLayerMu_of_computeMu {ring : List MultiLayerMember}
    (h : computeMu curve ring KI D = some mu) : multiLayerMu curve ring KI D = some mu := by
  unfold computeMu at h
  split at h
  · contradiction
  · rwa [computeMuInternal_eq] at h

omit [DecidableEq E] in
theorem aggregateScalar_of_aggregateShare (h : aggregateShare curve mu x z = some a) :
    aggregateScalar curve x z mu = some a := by
  unfold aggregateShare at h
  split at h
  · contradiction
  · exact h

omit [DecidableEq E] in
theorem seckey_of_closeShare {alpha c : Scalar} (h : closeShare curve alpha c x = some s) :
    ∃ α γ ξ, curve.seckey alpha = some α ∧ curve.seckey c = some γ ∧ curve.seckey x = some ξ ∧
      curve.seckey s = some (α - γ * ξ) := by
  unfold closeShare at h
  split at h
  · contradiction
  · rename_i hverify
    obtain ⟨α, hα⟩ := seckey_of_not_false (not_or.mp hverify).1
    obtain ⟨prod, hprod, h⟩ := bind_eq_some_iff.mp h
    obtain ⟨neg, hneg, h⟩ := bind_eq_some_iff.mp h
    obtain ⟨s', hs, h⟩ := bind_eq_some_iff.mp h
    obtain ⟨γ, ξ, hγ, hξ, hprod⟩ := seckeyTweakMul_eq_some.mp hprod
    rw [seckeyNegate_iff hprod] at hneg
    rw [seckeyTweakAdd_iff hα (parseScalar_of_seckey hneg), ← sub_eq_add_neg] at hs
    split at h
    · exact ⟨α, γ, ξ, hα, hγ, hξ, some.inj h ▸ hs⟩
    · contradiction

/-- What the walk has computed, with the steps of the single signer. -/
theorem walkRingMultiLayer_eq_some {ring : List MultiLayerMember} {pi : ℕ} {msg : Uint256}
    {L R : Point} {sOthers : List Scalar} {out : WalkOutput}
    (h : walkRingMultiLayer curve ring pi msg KI D L R sOthers = some out) :
    pi < ring.length ∧ sOthers.length = ring.length ∧ (ring.map (·.P)).Nodup ∧
      ∃ st first c, aggregate curve ring KI D = some st ∧
        challenge curve st msg (L, R) = some first ∧
        fillFrom (ringStep curve st msg sOthers) ring.length pi first (fun _ => zeroScalar) =
          some c ∧ out = ⟨c pi, c 0⟩ := by
  unfold walkRingMultiLayer at h
  split at h
  · contradiction
  · rename_i hshape
    split at h
    · contradiction
    · obtain ⟨st, hst, h⟩ := bind_eq_some_iff.mp h
      obtain ⟨first, hfirst, h⟩ := bind_eq_some_iff.mp h
      obtain ⟨c, hc, hout⟩ := bind_eq_some_iff.mp h
      simp only [hasDuplicateMembers, not_or, Nat.not_le, not_not, decide_eq_true_eq] at hshape
      rw [jointStatement_eq] at hst
      rw [walkStep_eq] at hc
      obtain ⟨rfl, rfl, rfl, -⟩ := aggregate_eq_some.mp hst
      exact ⟨hshape.1, hshape.2.1, hshape.2.2, st, first, c, hst, hfirst, hc,
        (some.inj hout).symm⟩

end Specifications

section TwoParties

variable {curve : Secp256k1 F E}

omit [DecidableEq E] in
theorem othersList_eq (N pi : ℕ) (decoys : ℕ → Seckey curve) :
    othersList curve N pi decoys = (decoyList curve N decoys).set pi zeroScalar := by
  refine ext_getElem (by simp [othersList, decoyList]) fun i hi hi' => ?_
  simp only [othersList, decoyList, getElem_map, getElem_range, getElem_set,
    eq_comm]

/-- Multiples of one point are combined by adding the scalars. -/
theorem scalarMultPoint_of_combinePoints {b : Scalar} {Q A B C : Point}
    (hA : curve.scalarMultPoint a Q = some A) (hB : curve.scalarMultPoint b Q = some B)
    (hC : combinePoints curve [A, B] = some C) :
    ∃ s, addScalars curve a b = some s ∧ curve.scalarMultPoint s Q = some C := by
  obtain ⟨α, q, hα, hq, hA⟩ := scalarMultPoint_eq_some.mp hA
  obtain ⟨β, q', hβ, hq', hB⟩ := scalarMultPoint_eq_some.mp hB
  obtain rfl := some.inj (hq.symm.trans hq')
  rw [combinePoints_pair, addPoints_iff hA hB, ← add_smul] at hC
  have hne : α + β ≠ 0 := by
    intro hzero
    rw [hzero, zero_smul] at hC
    exact curve.ne_zero_of_parse _ _ hC rfl
  have hs := @seckey_serializeScalar F E _ _ _ _ curve _ hne
  exact ⟨_, addScalars_eq_some.mpr ⟨α, β, hα, hβ, hs⟩, (scalarMultPoint_iff hs hq).mpr hC⟩

theorem nonces_add {L R : Point} {alphaA alphaB : Seckey curve} {nonceA nonceB : NoncePartial}
    (hA : nonceGen curve P alphaA = some nonceA) (hB : nonceGen curve P alphaB = some nonceB)
    (hL : combinePoints curve [nonceA.LShare, nonceB.LShare] = some L)
    (hR : combinePoints curve [nonceA.RShare, nonceB.RShare] = some R) :
    ∃ Hp alpha, curve.hashToPoint P.toList = some Hp ∧
      addScalars curve nonceA.alpha nonceB.alpha = some alpha ∧
      addScalars curve alphaA.1 alphaB.1 = some alpha ∧ curve.scalarMultG alpha = some L ∧
      curve.scalarMultPoint alpha Hp = some R := by
  obtain ⟨hnonceA, hLA, Hp, hHp, hRA⟩ := nonceGen_eq_some hA
  obtain ⟨hnonceB, hLB, Hp', hHp', hRB⟩ := nonceGen_eq_some hB
  obtain rfl := some.inj (hHp.symm.trans hHp')
  obtain ⟨alpha, halpha, hR⟩ := scalarMultPoint_of_combinePoints hRA hRB hR
  refine ⟨Hp, alpha, hHp, hnonceA ▸ hnonceB ▸ halpha, halpha, ?_, hR⟩
  obtain ⟨α, β, hα, hβ, hsum⟩ := addScalars_eq_some.mp halpha
  rw [scalarMultG_iff hα] at hLA
  rw [scalarMultG_iff hβ] at hLB
  rwa [scalarMultG_iff hsum, add_smul, ← addPoints_iff hLA hLB, ← combinePoints_pair]

theorem images_add {Hp : Point} {xA xB zA zB : Scalar} {imagesA imagesB : MultiLayerImageShares}
    (hHp : curve.hashToPoint P.toList = some Hp)
    (hA : kiCommitImageShare curve P xA zA = some imagesA)
    (hB : kiCommitImageShare curve P xB zB = some imagesB)
    (hKI : combinePoints curve [imagesA.KIShare, imagesB.KIShare] = some KI)
    (hD : combinePoints curve [imagesA.DShare, imagesB.DShare] = some D) :
    ∃ x z, addScalars curve xA xB = some x ∧ addScalars curve zA zB = some z ∧
      curve.scalarMultPoint x Hp = some KI ∧ curve.scalarMultPoint z Hp = some D := by
  obtain ⟨HpA, hHpA, hKIA, hDA⟩ := kiCommitImageShare_eq_some hA
  obtain ⟨HpB, hHpB, hKIB, hDB⟩ := kiCommitImageShare_eq_some hB
  obtain rfl := some.inj (hHp.symm.trans hHpA)
  obtain rfl := some.inj (hHp.symm.trans hHpB)
  obtain ⟨x, hx, hKI⟩ := scalarMultPoint_of_combinePoints hKIA hKIB hKI
  obtain ⟨z, hz, hD⟩ := scalarMultPoint_of_combinePoints hDA hDB hD
  exact ⟨x, z, hx, hz, hKI, hD⟩

/-- Where the images of two secrets have a weighted sum, so have the secrets. -/
theorem aggregateScalar_of_aggregate {ring : List MultiLayerMember} {Hp : Point} {st : Statement}
    (hst : aggregate curve ring KI D = some st) (hKI : curve.scalarMultPoint x Hp = some KI)
    (hD : curve.scalarMultPoint z Hp = some D) : ∃ a, aggregateScalar curve x z st.mu = some a := by
  obtain ⟨ξ, hp, hξ, hhp, hKI⟩ := scalarMultPoint_eq_some.mp hKI
  obtain ⟨ζ, hp', hζ, hhp', hD⟩ := scalarMultPoint_eq_some.mp hD
  obtain rfl := some.inj (hhp.symm.trans hhp')
  obtain ⟨-, -, -, -, -, hI⟩ := aggregate_eq_some.mp hst
  obtain ⟨p, w, hp', hw, μP, μC, hP, hC, hI⟩ := aggregateMember_eq_some.mp hI
  obtain rfl := some.inj (hKI.symm.trans hp')
  obtain rfl := some.inj (hD.symm.trans hw)
  have hsum : ξ * μP + ζ * μC ≠ 0 := by
    intro hzero
    refine curve.ne_zero_of_parse _ _ hI ?_
    rw [← mul_smul, ← mul_smul, ← add_smul, mul_comm μP, mul_comm μC, hzero, zero_smul]
  have ha := @seckey_serializeScalar F E _ _ _ _ curve _ hsum
  exact ⟨_, aggregateScalar_eq_some.mpr ⟨ξ, ζ, μP, μC, hξ, hζ, hP, hC, ha⟩⟩

omit [DecidableEq E] in
theorem aggregateShares_add {xA xB zA zB aA aB : Scalar}
    (hA : aggregateShare curve mu xA zA = some aA) (hB : aggregateShare curve mu xB zB = some aB)
    (hx : addScalars curve xA xB = some x) (hz : addScalars curve zA zB = some z)
    (ha : aggregateScalar curve x z mu = some a) : addScalars curve aA aB = some a := by
  obtain ⟨ξA, ζA, μP, μC, hξA, hζA, hμP, hμC, hκA⟩ :=
    aggregateScalar_eq_some.mp (aggregateScalar_of_aggregateShare hA)
  obtain ⟨ξB, ζB, μP₁, μC₁, hξB, hζB, hμP₁, hμC₁, hκB⟩ :=
    aggregateScalar_eq_some.mp (aggregateScalar_of_aggregateShare hB)
  obtain ⟨ξ, ζ, μP₂, μC₂, hξ, hζ, hμP₂, hμC₂, hκ⟩ := aggregateScalar_eq_some.mp ha
  obtain rfl := some.inj (hμP.symm.trans hμP₁)
  obtain rfl := some.inj (hμC.symm.trans hμC₁)
  obtain rfl := some.inj (hμP.symm.trans hμP₂)
  obtain rfl := some.inj (hμC.symm.trans hμC₂)
  rw [addScalars_iff hξA hξB, hξ, some.injEq] at hx
  rw [addScalars_iff hζA hζB, hζ, some.injEq] at hz
  rw [addScalars_iff hκA hκB, hκ, hx, hz]
  congr 1
  ring

omit [DecidableEq E] in
/-- The sum of the two responses is the one that the single signer computes from the sums. -/
theorem closeShares_add {alphaA alphaB alpha aA aB c shareA shareB sPi : Scalar}
    (hA : closeShare curve alphaA c aA = some shareA)
    (hB : closeShare curve alphaB c aB = some shareB)
    (hsPi : combineScalars curve [shareA, shareB] = some sPi)
    (halpha : addScalars curve alphaA alphaB = some alpha) (ha : addScalars curve aA aB = some a) :
    ∃ prod neg, curve.seckeyTweakMul a c = some prod ∧ curve.seckeyNegate prod = some neg ∧
      curve.seckeyTweakAdd neg alpha = some sPi := by
  obtain ⟨αA, γ, κA, hαA, hγ, hκA, hA⟩ := seckey_of_closeShare hA
  obtain ⟨αB, γ', κB, hαB, hγ', hκB, hB⟩ := seckey_of_closeShare hB
  obtain rfl := some.inj (hγ.symm.trans hγ')
  rw [addScalars_iff hαA hαB] at halpha
  rw [addScalars_iff hκA hκB] at ha
  have hne : (κA + κB) * γ ≠ 0 := mul_ne_zero (seckey_ne_zero ha) (seckey_ne_zero hγ)
  have hprod := @seckey_serializeScalar F E _ _ _ _ curve _ hne
  have hneg := @seckey_serializeScalar F E _ _ _ _ curve _ (neg_ne_zero.mpr hne)
  refine ⟨_, _, (seckeyTweakMul_iff ha hγ).mpr hprod, (seckeyNegate_iff hprod).mpr hneg, ?_⟩
  rw [seckeyTweakAdd_iff hneg (parseScalar_of_seckey halpha), seckey_of_combineScalars hsPi]
  simp only [map_cons, map_nil, sum_cons, sum_nil, value_of_seckey hA,
    value_of_seckey hB]
  congr 1
  ring

/-- Whenever two parties come to a signature, it is the one of a single signer with the sums of
their secrets and nonces and the same responses elsewhere. -/
theorem cooperativeSign_eq_signMultiLayer {ring : List MultiLayerMember} {pi : ℕ}
    {xA xB zA zB : Scalar} {msg : Uint256} {alphaA alphaB : Seckey curve}
    {decoys : ℕ → Seckey curve} {sig : Signature}
    (h : cooperativeSignTwoPartyML curve ring pi xA xB zA zB msg alphaA alphaB decoys = some sig) :
    ∃ m x z, ∃ alpha : Seckey curve, ring[pi]? = some m ∧ addScalars curve xA xB = some x ∧
      addScalars curve zA zB = some z ∧ addScalars curve alphaA.1 alphaB.1 = some alpha.1 ∧
      signChecked curve ring pi m x z msg alpha.1 (decoyList curve ring.length decoys) =
        some sig ∧
      (curve.scalarMultG x = some m.P → curve.scalarMultG z = some m.W →
        signMultiLayer curve ring pi x z msg alpha decoys = some sig) := by
  obtain ⟨m, hm, h⟩ := bind_eq_some_iff.mp h
  obtain ⟨nonceA, hnonceA, h⟩ := bind_eq_some_iff.mp h
  obtain ⟨nonceB, hnonceB, h⟩ := bind_eq_some_iff.mp h
  obtain ⟨imagesA, himagesA, h⟩ := bind_eq_some_iff.mp h
  obtain ⟨imagesB, himagesB, h⟩ := bind_eq_some_iff.mp h
  obtain ⟨KI, hKI, h⟩ := bind_eq_some_iff.mp h
  obtain ⟨D, hD, h⟩ := bind_eq_some_iff.mp h
  obtain ⟨L, hL, h⟩ := bind_eq_some_iff.mp h
  obtain ⟨R, hR, h⟩ := bind_eq_some_iff.mp h
  obtain ⟨mu, hmu, h⟩ := bind_eq_some_iff.mp h
  obtain ⟨aA, haA, h⟩ := bind_eq_some_iff.mp h
  obtain ⟨aB, haB, h⟩ := bind_eq_some_iff.mp h
  obtain ⟨walk, hwalk, h⟩ := bind_eq_some_iff.mp h
  obtain ⟨shareA, hshareA, h⟩ := bind_eq_some_iff.mp h
  obtain ⟨shareB, hshareB, h⟩ := bind_eq_some_iff.mp h
  obtain ⟨sPi, hsPi, h⟩ := bind_eq_some_iff.mp h
  obtain rfl := some.inj h
  obtain ⟨hpi, -, hnodup, st, first, c, hst, hfirst, hfill, rfl⟩ :=
    walkRingMultiLayer_eq_some hwalk
  obtain ⟨-, -, -, hstmu, -, -⟩ := aggregate_eq_some.mp hst
  obtain rfl := some.inj ((multiLayerMu_of_computeMu hmu).symm.trans hstmu)
  -- every share of one party is added to the other's
  obtain ⟨Hp, alpha, hHp, hnonces, halpha, hL, hR⟩ := nonces_add hnonceA hnonceB hL hR
  obtain ⟨x, z, hx, hz, hKI, hD⟩ := images_add hHp himagesA himagesB hKI hD
  obtain ⟨a, ha⟩ := aggregateScalar_of_aggregate hst hKI hD
  have hshares := aggregateShares_add haA haB hx hz ha
  obtain ⟨prod, neg, hprod, hneg, hclose⟩ := closeShares_add hshareA hshareB hsPi hnonces hshares
  rw [othersList_eq, fillFrom_congr hpi fun i _ hne => ringStep_set zeroScalar hne] at hfill
  have hsigned : signChecked curve ring pi m x z msg alpha (decoyList curve ring.length decoys) =
      some ⟨KI, D, c 0, (othersList curve ring.length pi decoys).set pi sPi⟩ := by
    refine signChecked_eq_some.mpr ⟨Hp, KI, D, st, a, L, R, first, c, prod, neg, sPi, hHp, hKI, hD,
      hst, ha, hL, hR, hfirst, hfill, hprod, hneg, hclose, ?_⟩
    rw [othersList_eq, set_set]
  obtain ⟨α, β, -, -, hvalid⟩ := addScalars_eq_some.mp halpha
  refine ⟨m, x, z, ⟨alpha, seckeyVerify_iff.mpr ⟨_, hvalid⟩⟩, hm, hx, hz, halpha, hsigned,
    fun hP hW => ?_⟩
  exact signMultiLayer_eq_some.mpr ⟨m, hm, hnodup, hP, hW, hsigned⟩

end TwoParties

section Sample

/-- The secrets 3 and 4 of the sample ring's signer and the nonce 3, each in two parts. -/
def sampleJoint : Option Signature :=
  cooperativeSignTwoPartyML sampleCurve sampleRing 1 (sampleScalar 1) (sampleScalar 2)
    (sampleScalar 1) (sampleScalar 3) sampleMessage (sampleKey 0) (sampleKey 1) fun _ => sampleKey 1

theorem cooperativeSign_eq_signMultiLayer_sample :
    ∃ sig, sampleJoint = some sig ∧ sampleSigned = some sig := by
  have hsome : sampleJoint.isSome = true := by decide +kernel
  obtain ⟨sig, hsig⟩ := isSome_iff_exists.mp hsome
  obtain ⟨m, x, z, alpha, hm, hx, hz, halpha, -, hsigned⟩ := cooperativeSign_eq_signMultiLayer hsig
  obtain rfl : ⟨samplePoint 3, samplePoint 4⟩ = m := some.inj hm
  have hxy : addScalars sampleCurve (sampleScalar 1) (sampleScalar 2) = some (sampleScalar 3) := by
    decide +kernel
  have hzw : addScalars sampleCurve (sampleScalar 1) (sampleScalar 3) = some (sampleScalar 4) := by
    decide +kernel
  obtain rfl := some.inj (hxy.symm.trans hx)
  obtain rfl := some.inj (hzw.symm.trans hz)
  obtain rfl : sampleKey 2 = alpha := Subtype.ext (some.inj (hxy.symm.trans halpha))
  exact ⟨sig, hsig, hsigned (by decide +kernel) (by decide +kernel)⟩

end Sample

end Pricoin.JointRingSig
