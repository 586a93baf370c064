import Mathlib.Algebra.Module.Torsion.Field
import Pricoin.RingSig

/-!
Adaptor signatures on rings. A pre-signature closes the ring only with two points
added at the signer's position, and a proof says that these have one logarithm, the
adaptor secret. Adding the secret to the response there gives a signature, and the
difference of the two responses gives the secret back.
-/
namespace Pricoin.AdaptorSig

open ByteStreams KeyImageFile Transactions CurveBytes CurveBytes.Secp256k1 RingWalks RingSig Option

variable {F E : Type} [Field F] [AddCommGroup E] [Module F E] {t : Scalar} {P : Point}
  {proof : DLEQProof} {sessionLabel sessionPayload : List UInt8}

section Logarithms

/-- The quotient of the differences of answers and challenges is a logarithm. -/
theorem eq_smul_of_responses {G A X : E} {e e' z z' : F} (hne : e ≠ e')
    (h : z • G = A + e • X) (h' : z' • G = A + e' • X) : X = ((z - z') / (e - e')) • G := by
  have hdiff : (z - z') • G = (e - e') • X := by
    rw [sub_smul, sub_smul, h, h', add_sub_add_left_eq_sub]
  have hunit : e - e' ≠ 0 := sub_ne_zero.mpr hne
  rw [div_eq_inv_mul, mul_smul, hdiff, inv_smul_smul₀ hunit]

theorem existsUnique_log_of_responses {G H A B X Y : E} {e e' z z' : F} (hG : G ≠ 0)
    (hne : e ≠ e') (hX : z • G = A + e • X) (hX' : z' • G = A + e' • X)
    (hY : z • H = B + e • Y) (hY' : z' • H = B + e' • Y) :
    ∃! a : F, X = a • G ∧ Y = a • H := by
  refine ⟨(z - z') / (e - e'), ⟨eq_smul_of_responses hne hX hX', eq_smul_of_responses hne hY hY'⟩,
    fun b hb => ?_⟩
  have hlog := hb.1.symm.trans (eq_smul_of_responses hne hX hX')
  exact smul_left_injective F hG hlog

end Logarithms

structure AdaptorPoints where
  TG : Point
  TH : Point
  deriving DecidableEq

structure DLEQProof where
  AG : Point
  AH : Point
  z : Scalar
  deriving DecidableEq

structure AdaptorPreSignature where
  keyImage : Point
  commitmentImage : Point
  c0 : Scalar
  s : List Scalar
  adaptor : AdaptorPoints
  dleq : DLEQProof
  pi : UInt32
  deriving DecidableEq

/-- The fields of a signature, with the response at `pi` still to be adapted. -/
def AdaptorPreSignature.signature (presig : AdaptorPreSignature) : Signature :=
  ⟨presig.keyImage, presig.commitmentImage, presig.c0, presig.s⟩

def adaptorTag : List UInt8 := ascii "pricoin/adaptor-clsag/H_s-v1"

def adaptorRehashTag : List UInt8 := ascii "pricoin/adaptor-clsag/H_s-rehash-v1"

def dleqTag : List UInt8 := ascii "dleq-challenge-v1"

def oneScalar : Scalar := ⟨List.replicate 31 0 ++ [1], rfl⟩

section Code

variable [DecidableEq F] [DecidableEq E]
variable (curve : Secp256k1 F E)

def hashToScalarAdaptor (chunks : List (List UInt8)) : Option Scalar :=
  curve.hashToScalarTagged adaptorTag adaptorRehashTag chunks

def dleqChallenge (G Hp TG TH AG AH : Point) (sessionLabel sessionPayload : List UInt8) :
    Option Scalar :=
  hashToScalarAdaptor curve [dleqTag, G.toList, Hp.toList, TG.toList, TH.toList, AG.toList,
    AH.toList, sessionLabel, sessionPayload]

def encodeG : Option Point := curve.scalarMultG oneScalar

def computeAdaptorPoints (t : Scalar) (P : Point) : Option AdaptorPoints :=
  if curve.seckeyVerify t = false then none
  else do
    let TG ← curve.scalarMultG t
    let Hp ← curve.hashToPoint P.toList
    let TH ← curve.scalarMultPoint t Hp
    some ⟨TG, TH⟩

/-- The challenge for two points and their commitments, with the second base. -/
def dleqSetup (P : Point) (adaptor : AdaptorPoints) (AG AH : Point)
    (sessionLabel sessionPayload : List UInt8) : Option (Point × Scalar) := do
  let Hp ← curve.hashToPoint P.toList
  let G ← encodeG curve
  let e ← dleqChallenge curve G Hp adaptor.TG adaptor.TH AG AH sessionLabel sessionPayload
  some (Hp, e)

def makeDLEQProof (t : Scalar) (P : Point) (adaptor : AdaptorPoints)
    (sessionLabel sessionPayload : List UInt8) (r : Seckey curve) : Option DLEQProof :=
  if curve.seckeyVerify t = false then none
  else do
    let Hp ← curve.hashToPoint P.toList
    let AG ← curve.scalarMultG r.1
    let AH ← curve.scalarMultPoint r.1 Hp
    let setup ← dleqSetup curve P adaptor AG AH sessionLabel sessionPayload
    let et ← curve.seckeyTweakMul setup.2 t
    let z ← curve.seckeyTweakAdd r.1 et
    some ⟨AG, AH, z⟩

/-- One of the two checks: a multiple of a base is a commitment and a multiple of a point. -/
def dleqHolds (lhs : Option Point) (A T : Point) (e : Scalar) : Bool :=
  lhs.isSome && lhs = (curve.scalarMultPoint e T).bind (curve.addPoints A)

/-- The two checks on a proof, for a challenge. -/
def dleqEquations (Hp : Point) (adaptor : AdaptorPoints) (proof : DLEQProof) (e : Scalar) : Bool :=
  dleqHolds curve (curve.scalarMultG proof.z) proof.AG adaptor.TG e &&
    dleqHolds curve (curve.scalarMultPoint proof.z Hp) proof.AH adaptor.TH e

def verifyDLEQProof (P : Point) (adaptor : AdaptorPoints) (proof : DLEQProof)
    (sessionLabel sessionPayload : List UInt8) : Bool :=
  if curve.parsePoint adaptor.TG = none ∨ curve.parsePoint adaptor.TH = none ∨
      curve.parsePoint proof.AG = none ∨ curve.parsePoint proof.AH = none ∨
      curve.seckeyVerify proof.z = false then false
  else
    match dleqSetup curve P adaptor proof.AG proof.AH sessionLabel sessionPayload with
    | none => false
    | some setup => dleqEquations curve setup.1 adaptor proof setup.2

def adaptML (presig : AdaptorPreSignature) (t : Scalar) (ring : List MultiLayerMember)
    (msg : Uint256) : Option Signature :=
  if curve.scalarMultG t ≠ some presig.adaptor.TG then none
  else do
    let s ← presig.s[presig.pi.toNat]?
    let sPi ← curve.seckeyTweakAdd s t
    let sig : Signature :=
      ⟨presig.keyImage, presig.commitmentImage, presig.c0, presig.s.set presig.pi.toNat sPi⟩
    if curve.seckeyVerify sPi && verifyMultiLayer curve ring sig msg then some sig else none

/-- The ring is given by its spend keys. -/
def extract (ring : List Point) (presig : AdaptorPreSignature) (sig : Signature) :
    Option Scalar :=
  match ring[presig.pi.toNat]? with
  | none => none
  | some P =>
    if sig.s.length ≠ presig.s.length then none
    else do
      let pre ← presig.s[presig.pi.toNat]?
      let negPre ← curve.seckeyNegate pre
      let s ← sig.s[presig.pi.toNat]?
      let t ← curve.seckeyTweakAdd s negPre
      let Hp ← curve.hashToPoint P.toList
      if curve.seckeyVerify t = true ∧ curve.scalarMultG t = some presig.adaptor.TG ∧
          curve.scalarMultPoint t Hp = some presig.adaptor.TH then some t else none

end Code

section Proofs

variable [DecidableEq F] [DecidableEq E]
variable {curve : Secp256k1 F E}

omit [DecidableEq E] in
theorem computeAdaptorPoints_eq_some {adaptor : AdaptorPoints} :
    computeAdaptorPoints curve t P = some adaptor ↔ ∃ Hp, curve.hashToPoint P.toList = some Hp ∧
      curve.scalarMultG t = some adaptor.TG ∧ curve.scalarMultPoint t Hp = some adaptor.TH := by
  unfold computeAdaptorPoints
  constructor
  · intro h
    split at h
    · contradiction
    · obtain ⟨TG, hTG, h⟩ := bind_eq_some_iff.mp h
      obtain ⟨Hp, hHp, h⟩ := bind_eq_some_iff.mp h
      obtain ⟨TH, hTH, h⟩ := bind_eq_some_iff.mp h
      obtain rfl := some.inj h
      exact ⟨Hp, hHp, hTG, hTH⟩
  · rintro ⟨Hp, hHp, hTG, hTH⟩
    obtain ⟨τ, hτ, -⟩ := scalarMultG_eq_some.mp hTG
    rw [if_neg (by simp [seckeyVerify, hτ])]
    refine bind_eq_some_iff.mpr ⟨adaptor.TG, hTG, ?_⟩
    refine bind_eq_some_iff.mpr ⟨Hp, hHp, ?_⟩
    exact bind_eq_some_iff.mpr ⟨adaptor.TH, hTH, rfl⟩

theorem dleqHolds_iff {lhs : Option Point} {A T : Point} {e : Scalar} :
    dleqHolds curve lhs A T e = true ↔ ∃ l, lhs = some l ∧ ∃ a τ ε, curve.parsePoint A = some a ∧
      curve.parsePoint T = some τ ∧ curve.seckey e = some ε ∧
      curve.parsePoint l = some (a + ε • τ) := by
  cases lhs with
  | none => simp [dleqHolds]
  | some l =>
    simp only [dleqHolds, isSome_some, Bool.true_and, decide_eq_true_eq, some.injEq,
      exists_eq_left']
    rw [eq_comm, bind_eq_some_iff]
    constructor
    · rintro ⟨eT, heT, hsum⟩
      obtain ⟨ε, τ, he, hT, heT⟩ := scalarMultPoint_eq_some.mp heT
      obtain ⟨a, q, hA, hq, hsum⟩ := addPoints_eq_some.mp hsum
      obtain rfl := some.inj (heT.symm.trans hq)
      exact ⟨a, τ, ε, hA, hT, he, hsum⟩
    · rintro ⟨a, τ, ε, hA, hT, he, hsum⟩
      have hne : ε • τ ≠ 0 := smul_ne_zero (seckey_ne_zero he) (curve.ne_zero_of_parse _ _ hT)
      have heT := curve.parse_serialize _ hne
      exact ⟨_, (scalarMultPoint_iff he hT).mpr heT, (addPoints_iff hA heT).mpr hsum⟩

/-- The equations of a proof, by what everything in them is read as. -/
theorem dleqEquations_iff {Hp : Point} {adaptor : AdaptorPoints} {e : Scalar} {hp : E}
    (hhp : curve.parsePoint Hp = some hp) :
    dleqEquations curve Hp adaptor proof e = true ↔ ∃ ζ ε a b τ υ,
      curve.seckey proof.z = some ζ ∧ curve.seckey e = some ε ∧
      curve.parsePoint proof.AG = some a ∧ curve.parsePoint proof.AH = some b ∧
      curve.parsePoint adaptor.TG = some τ ∧ curve.parsePoint adaptor.TH = some υ ∧
      ζ • curve.G = a + ε • τ ∧ ζ • hp = b + ε • υ := by
  rw [dleqEquations, Bool.and_eq_true, dleqHolds_iff, dleqHolds_iff]
  constructor
  · rintro ⟨⟨l, hl, a, τ, ε, ha, hτ, hε, hsum⟩, ⟨l', hl', b, υ, ε', hb, hυ, hε', hsum'⟩⟩
    obtain ⟨ζ, hζ, hl⟩ := scalarMultG_eq_some.mp hl
    rw [scalarMultPoint_iff hζ hhp] at hl'
    obtain rfl := some.inj (hε.symm.trans hε')
    exact ⟨ζ, ε, a, b, τ, υ, hζ, hε, ha, hb, hτ, hυ, some.inj (hl.symm.trans hsum),
      some.inj (hl'.symm.trans hsum')⟩
  · rintro ⟨ζ, ε, a, b, τ, υ, hζ, hε, ha, hb, hτ, hυ, hsum, hsum'⟩
    have hz : ζ ≠ 0 := seckey_ne_zero hζ
    have hl := curve.parse_serialize _ (smul_ne_zero hz curve.generator_ne_zero)
    have hl' := curve.parse_serialize _ (smul_ne_zero hz (curve.ne_zero_of_parse _ _ hhp))
    exact ⟨⟨_, (scalarMultG_iff hζ).mpr hl, a, τ, ε, ha, hτ, hε, hsum ▸ hl⟩,
      ⟨_, (scalarMultPoint_iff hζ hhp).mpr hl', b, υ, ε, hb, hυ, hε, hsum' ▸ hl'⟩⟩

omit [DecidableEq E] in
theorem dleqSetup_eq_some {AG AH : Point} {adaptor : AdaptorPoints} {setup : Point × Scalar}
    (h : dleqSetup curve P adaptor AG AH sessionLabel sessionPayload = some setup) :
    curve.hashToPoint P.toList = some setup.1 ∧ ∃ ε, curve.seckey setup.2 = some ε := by
  obtain ⟨Hp, hHp, h⟩ := bind_eq_some_iff.mp h
  obtain ⟨G, -, h⟩ := bind_eq_some_iff.mp h
  obtain ⟨e, he, h⟩ := bind_eq_some_iff.mp h
  obtain rfl := some.inj h
  exact ⟨hHp, seckey_of_hashToScalarTagged he⟩

theorem verifyDLEQProof_iff {adaptor : AdaptorPoints} :
    verifyDLEQProof curve P adaptor proof sessionLabel sessionPayload = true ↔ ∃ setup,
      dleqSetup curve P adaptor proof.AG proof.AH sessionLabel sessionPayload = some setup ∧
      dleqEquations curve setup.1 adaptor proof setup.2 = true := by
  unfold verifyDLEQProof
  cases hsetup : dleqSetup curve P adaptor proof.AG proof.AH sessionLabel sessionPayload with
  | none => simp
  | some setup =>
    simp only [some.injEq, exists_eq_left']
    split
    · rename_i hinvalid
      refine iff_of_false (by simp) fun heq => ?_
      obtain ⟨hp, hhp⟩ := parse_of_hashToPoint (dleqSetup_eq_some hsetup).1
      obtain ⟨ζ, ε, a, b, τ, υ, hζ, hε, ha, hb, hτ, hυ, -⟩ := (dleqEquations_iff hhp).mp heq
      simp [ha, hb, hτ, hυ, seckeyVerify, hζ] at hinvalid
    · rfl

/-- A proof for two multiples by one secret is accepted. -/
theorem verifyDLEQProof_of_make {Hp : Point} {adaptor : AdaptorPoints} {r : Seckey curve}
    (hHp : curve.hashToPoint P.toList = some Hp) (hTG : curve.scalarMultG t = some adaptor.TG)
    (hTH : curve.scalarMultPoint t Hp = some adaptor.TH)
    (h : makeDLEQProof curve t P adaptor sessionLabel sessionPayload r = some proof) :
    verifyDLEQProof curve P adaptor proof sessionLabel sessionPayload = true := by
  unfold makeDLEQProof at h
  split at h
  · contradiction
  · obtain ⟨Hp', hHp', h⟩ := bind_eq_some_iff.mp h
    obtain rfl := some.inj (hHp.symm.trans hHp')
    obtain ⟨AG, hAG, h⟩ := bind_eq_some_iff.mp h
    obtain ⟨AH, hAH, h⟩ := bind_eq_some_iff.mp h
    obtain ⟨setup, hsetup, h⟩ := bind_eq_some_iff.mp h
    obtain ⟨et, het, h⟩ := bind_eq_some_iff.mp h
    obtain ⟨z, hz, h⟩ := bind_eq_some_iff.mp h
    obtain rfl := some.inj h
    refine verifyDLEQProof_iff.mpr ⟨setup, hsetup, ?_⟩
    obtain ⟨hbase, ε, hε⟩ := dleqSetup_eq_some hsetup
    obtain rfl := some.inj (hHp.symm.trans hbase)
    obtain ⟨ρ, hρ, hAG⟩ := scalarMultG_eq_some.mp hAG
    obtain ⟨τ, hτ, hTG⟩ := scalarMultG_eq_some.mp hTG
    obtain ⟨_, hp, _, hhp, -⟩ := scalarMultPoint_eq_some.mp hTH
    rw [scalarMultPoint_iff hρ hhp] at hAH
    rw [scalarMultPoint_iff hτ hhp] at hTH
    rw [seckeyTweakMul_iff hε hτ] at het
    rw [seckeyTweakAdd_iff hρ (parseScalar_of_seckey het)] at hz
    refine (dleqEquations_iff hhp).mpr ⟨_, ε, _, _, _, _, hz, hε, hAG, hAH, hTG, hTH, ?_, ?_⟩
    · rw [add_smul, mul_smul]
    · rw [add_smul, mul_smul]

/-- Proofs for honest points are accepted, and two accepted answers to different challenges on one
pair of commitments determine a common logarithm. -/
theorem dleq_complete_and_specially_sound (curve : Secp256k1 F E) :
    (∀ (t : Scalar) (P : Point) (adaptor : AdaptorPoints) (sessionLabel sessionPayload : List UInt8)
      (r : Seckey curve) (proof : DLEQProof), computeAdaptorPoints curve t P = some adaptor →
      makeDLEQProof curve t P adaptor sessionLabel sessionPayload r = some proof →
      verifyDLEQProof curve P adaptor proof sessionLabel sessionPayload = true) ∧
    ∀ (Hp : Point) (hp : E) (adaptor : AdaptorPoints) (proof proof' : DLEQProof) (e e' : Scalar),
      curve.parsePoint Hp = some hp → proof.AG = proof'.AG → proof.AH = proof'.AH → e ≠ e' →
      dleqEquations curve Hp adaptor proof e = true →
      dleqEquations curve Hp adaptor proof' e' = true →
      ∃! t : F, curve.parsePoint adaptor.TG = some (t • curve.G) ∧
        curve.parsePoint adaptor.TH = some (t • hp) := by
  constructor
  · intro t P adaptor sessionLabel sessionPayload r proof hadaptor hproof
    obtain ⟨Hp, hHp, hTG, hTH⟩ := computeAdaptorPoints_eq_some.mp hadaptor
    exact verifyDLEQProof_of_make hHp hTG hTH hproof
  · intro Hp hp adaptor proof proof' e e' hhp hAG hAH hne heq heq'
    obtain ⟨ζ, ε, a, b, τ, υ, -, hε, ha, hb, hτ, hυ, hX, hY⟩ := (dleqEquations_iff hhp).mp heq
    obtain ⟨ζ', ε', a', b', τ', υ', -, hε', ha', hb', hτ', hυ', hX', hY'⟩ :=
      (dleqEquations_iff hhp).mp heq'
    obtain rfl := some.inj (ha.symm.trans (hAG ▸ ha'))
    obtain rfl := some.inj (hb.symm.trans (hAH ▸ hb'))
    obtain rfl := some.inj (hτ.symm.trans hτ')
    obtain rfl := some.inj (hυ.symm.trans hυ')
    have hchallenge : ε ≠ ε' := by
      rintro rfl
      exact hne (seckey_inj hε hε')
    rw [hτ, hυ]
    simp only [some.injEq]
    exact existsUnique_log_of_responses curve.generator_ne_zero hchallenge hX hX' hY hY'

end Proofs

section Adapting

variable [DecidableEq F] [DecidableEq E]
variable {curve : Secp256k1 F E}

theorem preSigPoints_of_ne {st : Statement} {s : List Scalar} {pi i : ℕ} {TG TH : Point}
    (hne : i ≠ pi) (c : Scalar) :
    preSigPoints curve st s pi TG TH i c = ringPoints curve st s i c := by
  have hshift : shiftAt curve pi TG TH i = some := funext fun points => if_neg hne
  rw [preSigPoints, hshift, bind_fun_some]

/-- The points of the signer's position are those without the adaptor, moved by its points. -/
theorem preSigPoints_self {st : Statement} {s : List Scalar} {pi : ℕ} {TG TH : Point}
    {c : Scalar} {L R : Point} :
    preSigPoints curve st s pi TG TH pi c = some (L, R) ↔ ∃ l r,
      ringPoints curve st s pi c = some (l, r) ∧ curve.addPoints l TG = some L ∧
      curve.addPoints r TH = some R := by
  constructor
  · intro h
    obtain ⟨⟨l, r⟩, hpoints, h⟩ := bind_eq_some_iff.mp h
    rw [shiftAt, if_pos rfl] at h
    obtain ⟨Ls, hLs, h⟩ := bind_eq_some_iff.mp h
    obtain ⟨Rs, hRs, h⟩ := bind_eq_some_iff.mp h
    obtain ⟨rfl, rfl⟩ := Prod.mk.inj (some.inj h)
    exact ⟨l, r, hpoints, hLs, hRs⟩
  · rintro ⟨l, r, hpoints, hLs, hRs⟩
    rw [preSigPoints, hpoints, bind_some, shiftAt, if_pos rfl, hLs, hRs]
    rfl

/-- Adding the secret to the response has the effect of adding its points. -/
theorem ringStep_of_preSigStep {st : Statement} {msg : Uint256} {s : List Scalar} {pi : ℕ}
    {TG TH Hp : Point} {m : MultiLayerMember} {hp : E} {pre u : Scalar} {σ τ : F}
    (hm : st.ring[pi]? = some m) (hHp : curve.hashToPoint m.P.toList = some Hp)
    (hhp : curve.parsePoint Hp = some hp) (hTG : curve.parsePoint TG = some (τ • curve.G))
    (hTH : curve.parsePoint TH = some (τ • hp)) (hpre : s[pi]? = some pre)
    (hσ : curve.seckey pre = some σ) (hu : curve.seckey u = some (σ + τ)) (i : ℕ) (c d : Scalar)
    (h : preSigStep curve st msg s pi TG TH i c = some d) :
    ringStep curve st msg (s.set pi u) i c = some d := by
  obtain ⟨⟨L, R⟩, hpoints, hd⟩ := bind_eq_some_iff.mp h
  by_cases hi : i = pi
  · subst hi
    obtain ⟨l, r, hpoints, hL, hR⟩ := preSigPoints_self.mp hpoints
    obtain ⟨m', t, pre', Hp', hm', ht, hpre', hHp', T, hp', I, σ', γ, hT, hhp', hI, hσ', hγ,
      hl, hr⟩ := ringPoints_eq_some.mp hpoints
    obtain rfl := some.inj (hm.symm.trans hm')
    obtain rfl := some.inj (hpre.symm.trans hpre')
    obtain rfl := some.inj (hHp.symm.trans hHp')
    obtain rfl := some.inj (hhp.symm.trans hhp')
    obtain rfl := some.inj (hσ.symm.trans hσ')
    rw [addPoints_iff hl hTG, add_right_comm, ← add_smul] at hL
    rw [addPoints_iff hr hTH, add_right_comm, ← add_smul] at hR
    have hget : (s.set i u)[i]? = some u :=
      List.getElem?_set_self (List.getElem?_eq_some_iff.mp hpre).1
    rw [ringStep, ringPoints_eq_some.mpr ⟨m, t, u, Hp, hm, ht, hget, hHp, T, hp, I, σ + τ, γ, hT,
      hhp, hI, hu, hγ, hL, hR⟩]
    exact hd
  · rw [preSigPoints_of_ne hi] at hpoints
    rw [ringStep_set u hi, ringStep, hpoints]
    exact hd

/-- The signature with another response at the signer's position. -/
def AdaptorPreSignature.adapted (presig : AdaptorPreSignature) (u : Scalar) : Signature :=
  ⟨presig.keyImage, presig.commitmentImage, presig.c0, presig.s.set presig.pi.toNat u⟩

omit [DecidableEq E] in
theorem extract_eq_some {ring : List Point} {presig : AdaptorPreSignature} {sig : Signature} :
    extract curve ring presig sig = some t ↔ sig.s.length = presig.s.length ∧
      ∃ P Hp pre negPre s, ring[presig.pi.toNat]? = some P ∧
        presig.s[presig.pi.toNat]? = some pre ∧ curve.seckeyNegate pre = some negPre ∧
        sig.s[presig.pi.toNat]? = some s ∧ curve.seckeyTweakAdd s negPre = some t ∧
        curve.hashToPoint P.toList = some Hp ∧
        curve.scalarMultG t = some presig.adaptor.TG ∧
        curve.scalarMultPoint t Hp = some presig.adaptor.TH := by
  unfold extract
  constructor
  · intro h
    split at h
    · contradiction
    · rename_i P hP
      split at h
      · contradiction
      · rename_i hlength
        obtain ⟨pre, hpre, h⟩ := bind_eq_some_iff.mp h
        obtain ⟨negPre, hneg, h⟩ := bind_eq_some_iff.mp h
        obtain ⟨s, hs, h⟩ := bind_eq_some_iff.mp h
        obtain ⟨t', ht, h⟩ := bind_eq_some_iff.mp h
        obtain ⟨Hp, hHp, h⟩ := bind_eq_some_iff.mp h
        split at h
        · rename_i hchecks
          obtain rfl := some.inj h
          exact ⟨not_not.mp hlength, P, Hp, pre, negPre, s, hP, hpre, hneg, hs, ht, hHp,
            hchecks.2⟩
        · contradiction
  · rintro ⟨hlength, P, Hp, pre, negPre, s, hP, hpre, hneg, hs, ht, hHp, hTG, hTH⟩
    obtain ⟨τ, hτ, -⟩ := scalarMultG_eq_some.mp hTG
    simp only [hP, if_neg (not_not.mpr hlength)]
    refine bind_eq_some_iff.mpr ⟨pre, hpre, ?_⟩
    refine bind_eq_some_iff.mpr ⟨negPre, hneg, ?_⟩
    refine bind_eq_some_iff.mpr ⟨s, hs, ?_⟩
    refine bind_eq_some_iff.mpr ⟨t, ht, ?_⟩
    refine bind_eq_some_iff.mpr ⟨Hp, hHp, ?_⟩
    exact if_pos ⟨seckeyVerify_iff.mpr ⟨τ, hτ⟩, hTG, hTH⟩

omit [DecidableEq E] in
/-- Taking the response of a pre-signature away again gives the secret. -/
theorem extract_adapted {ring : List Point} {presig : AdaptorPreSignature} {pre u : Scalar}
    {σ τ : F} (hP : ring[presig.pi.toNat]? = some P)
    (hadaptor : computeAdaptorPoints curve t P = some presig.adaptor)
    (hpre : presig.s[presig.pi.toNat]? = some pre) (hσ : curve.seckey pre = some σ)
    (hτ : curve.seckey t = some τ) (hu : curve.seckey u = some (σ + τ)) :
    extract curve ring presig (presig.adapted u) = some t := by
  obtain ⟨Hp, hHp, hTG, hTH⟩ := computeAdaptorPoints_eq_some.mp hadaptor
  have hneg := @seckey_serializeScalar F E _ _ _ _ curve _ (neg_ne_zero.mpr (seckey_ne_zero hσ))
  refine extract_eq_some.mpr ⟨by simp [AdaptorPreSignature.adapted], P, Hp, pre,
    curve.serializeScalar (-σ), u, hP, hpre, (seckeyNegate_iff hσ).mpr hneg, ?_, ?_, hHp, hTG, hTH⟩
  · exact List.getElem?_set_self (List.getElem?_eq_some_iff.mp hpre).1
  · rw [seckeyTweakAdd_iff hu (parseScalar_of_seckey hneg), hτ, add_neg_cancel_comm]

theorem adaptML_eq_some {presig : AdaptorPreSignature} {t pre u : Scalar}
    {ring : List MultiLayerMember} {msg : Uint256} {σ τ : F}
    (hTG : curve.scalarMultG t = some presig.adaptor.TG)
    (hpre : presig.s[presig.pi.toNat]? = some pre) (hσ : curve.seckey pre = some σ)
    (hτ : curve.seckey t = some τ) (hu : curve.seckey u = some (σ + τ))
    (hverify : verifyMultiLayer curve ring (presig.adapted u) msg = true) :
    adaptML curve presig t ring msg = some (presig.adapted u) := by
  rw [adaptML, if_neg (not_not.mpr hTG)]
  refine bind_eq_some_iff.mpr ⟨pre, hpre, ?_⟩
  refine bind_eq_some_iff.mpr
    ⟨u, (seckeyTweakAdd_iff hσ (parseScalar_of_seckey hτ)).mpr hu, ?_⟩
  exact if_pos (Bool.and_eq_true_iff.mpr ⟨seckeyVerify_iff.mpr ⟨_, hu⟩, hverify⟩)

/-- Where the adapted response is zero there is no signature. -/
theorem adaptML_eq_none {ring : List MultiLayerMember} {presig : AdaptorPreSignature}
    {msg : Uint256} {t pre : Scalar} {σ τ : F} (hpre : presig.s[presig.pi.toNat]? = some pre)
    (hσ : curve.seckey pre = some σ) (hτ : curve.seckey t = some τ) (hzero : σ + τ = 0) :
    adaptML curve presig t ring msg = none := by
  unfold adaptML
  split
  · rfl
  · rw [hpre, bind_eq_bind, bind_some,
      seckeyTweakAdd_eq_none hσ (parseScalar_of_seckey hτ) hzero]
    rfl

/-- An accepted pre-signature is adapted by the secret of its adaptor points unless the adapted
response is zero, and the secret is extracted from the result. -/
theorem adapts_of_accepted {ring : List MultiLayerMember} {presig : AdaptorPreSignature}
    {msg : Uint256} {t : Scalar} {m : MultiLayerMember}
    (h : verifyMultiLayerPreSig curve ring presig.signature msg presig.pi.toNat presig.adaptor.TG
      presig.adaptor.TH = true)
    (hm : ring[presig.pi.toNat]? = some m)
    (hadaptor : computeAdaptorPoints curve t m.P = some presig.adaptor) :
    ∃ pre σ τ, presig.s[presig.pi.toNat]? = some pre ∧ curve.seckey pre = some σ ∧
      curve.seckey t = some τ ∧ (σ + τ = 0 ∨ ∃ u, curve.seckey u = some (σ + τ) ∧
        verifyMultiLayer curve ring (presig.adapted u) msg = true ∧
        adaptML curve presig t ring msg = some (presig.adapted u) ∧
        extract curve (ring.map (·.P)) presig (presig.adapted u) = some t) := by
  obtain ⟨hpi, hlength, hnodup, -, -, st, hst, hwalk⟩ := verifyMultiLayerPreSig_iff.mp h
  obtain ⟨Hp, hHp, hTG, hTH⟩ := computeAdaptorPoints_eq_some.mp hadaptor
  obtain ⟨τ, hp, hτ, hhp, hTH⟩ := scalarMultPoint_eq_some.mp hTH
  obtain ⟨hring, -⟩ := aggregate_eq_some.mp hst
  -- the walk has taken the step at the signer's position, so the response there is valid
  obtain ⟨c, d, hstep⟩ := exists_step_of_walk hwalk hpi
  obtain ⟨⟨L, R⟩, hpoints, -⟩ := bind_eq_some_iff.mp hstep
  rw [Nat.zero_add] at hpoints
  obtain ⟨l, r, hpoints, -⟩ := preSigPoints_self.mp hpoints
  obtain ⟨_, _, pre, _, -, -, hpre, -, _, _, _, σ, -, -, -, -, hσ, -⟩ :=
    ringPoints_eq_some.mp hpoints
  refine ⟨pre, σ, τ, hpre, hσ, hτ, ?_⟩
  by_cases hzero : σ + τ = 0
  · exact .inl hzero
  · have hu := @seckey_serializeScalar F E _ _ _ _ curve _ hzero
    have hmono := @ringStep_of_preSigStep F E _ _ _ _ _ curve st msg presig.s presig.pi.toNat
      presig.adaptor.TG presig.adaptor.TH Hp m hp pre _ σ τ (hring ▸ hm) hHp hhp
      ((scalarMultG_iff hτ).mp hTG) hTH hpre hσ hu
    have hverify : verifyMultiLayer curve ring
        (presig.adapted (curve.serializeScalar (σ + τ))) msg = true := by
      refine verifyMultiLayer_iff.mpr ⟨List.ne_nil_of_length_pos (by omega), ?_, hnodup, st,
        hst, walk_mono hmono hwalk⟩
      rw [AdaptorPreSignature.adapted, List.length_set]
      exact hlength
    exact .inr ⟨_, hu, hverify, adaptML_eq_some hTG hpre hσ hτ hu hverify,
      extract_adapted (by simp [hm]) hadaptor hpre hσ hτ hu⟩

/-- Wherever an accepted pre-signature comes from, the secret of its adaptor points makes it a
signature that gives the secret back, and from no signature is anything extracted but a logarithm
of the adaptor point. -/
theorem accepted_preSignature_adapts {ring : List MultiLayerMember}
    {presig : AdaptorPreSignature} {msg : Uint256}
    (h : verifyMultiLayerPreSig curve ring presig.signature msg presig.pi.toNat presig.adaptor.TG
      presig.adaptor.TH = true) :
    (∀ t m, ring[presig.pi.toNat]? = some m →
      computeAdaptorPoints curve t m.P = some presig.adaptor →
      ∃ pre σ τ, presig.s[presig.pi.toNat]? = some pre ∧ curve.seckey pre = some σ ∧
        curve.seckey t = some τ ∧ (σ + τ = 0 ∨ ∃ u, curve.seckey u = some (σ + τ) ∧
          verifyMultiLayer curve ring (presig.adapted u) msg = true ∧
          adaptML curve presig t ring msg = some (presig.adapted u) ∧
          extract curve (ring.map (·.P)) presig (presig.adapted u) = some t)) ∧
    ∀ sig t, extract curve (ring.map (·.P)) presig sig = some t →
      curve.scalarMultG t = some presig.adaptor.TG := by
  refine ⟨fun t m hm hadaptor => adapts_of_accepted h hm hadaptor, fun sig t hextract => ?_⟩
  obtain ⟨-, _, _, _, _, _, -, -, -, -, -, -, hTG, -⟩ := extract_eq_some.mp hextract
  exact hTG

end Adapting

section Sample

/-- The points of the secret 1 for the signer of the sample ring. -/
def sampleAdaptor : AdaptorPoints := ⟨samplePoint 1, samplePoint 6⟩

theorem sampleAdaptor_eq :
    computeAdaptorPoints sampleCurve (sampleScalar 1) (samplePoint 3) = some sampleAdaptor := by
  decide +kernel

theorem dleq_complete_and_specially_sound_sample :
    (∃ proof, makeDLEQProof sampleCurve (sampleScalar 1) (samplePoint 3) sampleAdaptor [1] [2]
        (sampleKey 1) = some proof ∧
      verifyDLEQProof sampleCurve (samplePoint 3) sampleAdaptor proof [1] [2] = true) ∧
    ∃! t : ZMod 7, sampleCurve.parsePoint sampleAdaptor.TG = some (t • sampleCurve.G) ∧
      sampleCurve.parsePoint sampleAdaptor.TH = some (t • (6 : ZMod 7)) := by
  obtain ⟨hcomplete, hsound⟩ := dleq_complete_and_specially_sound sampleCurve
  constructor
  · have hsome : (makeDLEQProof sampleCurve (sampleScalar 1) (samplePoint 3) sampleAdaptor [1] [2]
        (sampleKey 1)).isSome = true := by
      decide +kernel
    obtain ⟨proof, hproof⟩ := isSome_iff_exists.mp hsome
    exact ⟨proof, hproof, hcomplete _ _ _ _ _ _ proof sampleAdaptor_eq hproof⟩
  · exact hsound (samplePoint 6) 6 sampleAdaptor ⟨samplePoint 2, samplePoint 5, sampleScalar 3⟩
      ⟨samplePoint 2, samplePoint 5, sampleScalar 4⟩ (sampleScalar 1) (sampleScalar 2)
      (by decide +kernel) rfl rfl (by decide +kernel) (by decide +kernel) (by decide +kernel)

/-- The sample signature with the secret 1 taken off the signer's response. -/
def samplePreSig : AdaptorPreSignature where
  keyImage := samplePoint 4
  commitmentImage := samplePoint 3
  c0 := sampleScalar 4
  s := [sampleScalar 2, sampleScalar 1, sampleScalar 2]
  adaptor := sampleAdaptor
  dleq := ⟨samplePoint 1, samplePoint 1, sampleScalar 1⟩
  pi := 1

theorem accepted_preSignature_adapts_sample :
    ∃ u, adaptML sampleCurve samplePreSig (sampleScalar 1) sampleRing sampleMessage =
        some (samplePreSig.adapted u) ∧
      verifyMultiLayer sampleCurve sampleRing (samplePreSig.adapted u) sampleMessage = true ∧
      extract sampleCurve (sampleRing.map (·.P)) samplePreSig (samplePreSig.adapted u) =
        some (sampleScalar 1) := by
  have haccepted : verifyMultiLayerPreSig sampleCurve sampleRing samplePreSig.signature
      sampleMessage samplePreSig.pi.toNat samplePreSig.adaptor.TG samplePreSig.adaptor.TH =
        true := by
    decide +kernel
  have hone : sampleCurve.seckey (sampleScalar 1) = some 1 := by decide +kernel
  obtain ⟨pre, σ, τ, hpre, hσ, hτ, hcases⟩ := (accepted_preSignature_adapts haccepted).1
    (sampleScalar 1) ⟨samplePoint 3, samplePoint 4⟩ rfl sampleAdaptor_eq
  obtain rfl : sampleScalar 1 = pre := some.inj hpre
  obtain rfl := some.inj (hone.symm.trans hσ)
  obtain rfl := some.inj (hone.symm.trans hτ)
  rcases hcases with hzero | ⟨u, -, hverify, hadapt, hextract⟩
  · exact absurd hzero (by decide)
  · exact ⟨u, hadapt, hverify, hextract⟩

end Sample

end Pricoin.AdaptorSig
