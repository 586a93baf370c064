import Mathlib.Algebra.Field.ZMod
import Pricoin.CurveBytes
import Pricoin.Ecdsa
import Pricoin.RingWalks

/-!
Multi-layer ring signatures. A member of a ring is a spend key and the difference of
two commitments, which are aggregated with weights that are hashes of the ring and of
the two images. The signer walks the ring from behind its own position and closes it
with its secrets. The verifier walks it from the start, and so does the verifier of a
pre-signature, which adds the adaptor points at the signer's position. Random choices
are arguments, and an exception counts as no result.
-/
namespace Pricoin.RingSig

open ByteStreams KeyImageFile Transactions CurveBytes CurveBytes.Secp256k1 RingWalks Option

variable {F E : Type} [Field F] [AddCommGroup E] [Module F E] [DecidableEq F] [DecidableEq E]
  {c x z a alpha : Scalar} {out R L : Point} {m : MultiLayerMember} {st : Statement}
  {s : List Scalar} {i pi : ℕ} {msg : Uint256} {sig : Signature}

structure MultiLayerMember where
  P : Point
  W : Point
  deriving DecidableEq

def hasDuplicateMembers (ring : List MultiLayerMember) : Bool := ¬ (ring.map (·.P)).Nodup

def ringBlob (ring : List MultiLayerMember) : List UInt8 :=
  ring.flatMap fun m => m.P.toList ++ m.W.toList

def hashTag : List UInt8 := ascii "pricoin/ringsig/H_s-v1"

def rehashTag : List UInt8 := ascii "pricoin/ringsig/H_s-rehash-v1"

def muPTag : List UInt8 := ascii "pricoin/clsag/agg/P/v2"

def muCTag : List UInt8 := ascii "pricoin/clsag/agg/C/v2"

def stepTag : List UInt8 := ascii "pricoin/clsag/step/v2"

section Code

variable (curve : Secp256k1 F E)

def hashToScalar (chunks : List (List UInt8)) : Option Scalar :=
  curve.hashToScalarTagged hashTag rehashTag chunks

def linCombSGPlusCP (s c : Scalar) (P : E) : Option Point := do
  let sG ← curve.pubkeyCreate s
  let cP ← curve.pubkeyTweakMul P c
  let sum ← curve.pubkeyCombine [sG, cP]
  some (curve.serializePoint sum)

def linCombSQPlusCR (s : Scalar) (QBytes : Point) (c : Scalar) (RBytes : Point) :
    Option Point := do
  let Q ← curve.parsePoint QBytes
  let R ← curve.parsePoint RBytes
  let sQ ← curve.pubkeyTweakMul Q s
  let cR ← curve.pubkeyTweakMul R c
  let sum ← curve.pubkeyCombine [sQ, cR]
  some (curve.serializePoint sum)

def computeKeyImage (P : Point) (x : Scalar) : Option Point := do
  let Hp ← curve.hashToPoint P.toList
  curve.scalarMultPoint x Hp

structure Mu where
  muP : Scalar
  muC : Scalar

/-- The weights are bound to the ring and to both images. -/
def multiLayerMu (ring : List MultiLayerMember) (KI D : Point) : Option Mu := do
  let muP ← hashToScalar curve [muPTag, ringBlob ring, KI.toList, D.toList]
  let muC ← hashToScalar curve [muCTag, ringBlob ring, KI.toList, D.toList]
  some ⟨muP, muC⟩

def stepChallengeML (ring : List MultiLayerMember) (msg : Uint256) (L R KI D : Point) :
    Option Scalar :=
  hashToScalar curve
    [stepTag, ringBlob ring, msg.toList, L.toList, R.toList, KI.toList, D.toList]

def aggregateMember (mu : Mu) (m : MultiLayerMember) : Option Point := do
  let P ← curve.parsePoint m.P
  let W ← curve.parsePoint m.W
  let P ← curve.pubkeyTweakMul P mu.muP
  let W ← curve.pubkeyTweakMul W mu.muC
  let sum ← curve.pubkeyCombine [P, W]
  some (curve.serializePoint sum)

def aggregateScalar (x z : Scalar) (mu : Mu) : Option Scalar := do
  let t₁ ← curve.seckeyTweakMul x mu.muP
  let t₂ ← curve.seckeyTweakMul z mu.muC
  let out ← curve.seckeyTweakAdd t₁ t₂
  if curve.seckeyVerify out then some out else none

/-- A ring under signature: its images, its aggregated members and their image. -/
structure Statement where
  ring : List MultiLayerMember
  KI : Point
  D : Point
  mu : Mu
  T : List Point
  iAgg : Point

/-- What signer and verifiers compute from a ring and its images. -/
def aggregate (ring : List MultiLayerMember) (KI D : Point) : Option Statement := do
  let mu ← multiLayerMu curve ring KI D
  let T ← ring.mapM (aggregateMember curve mu)
  let iAgg ← aggregateMember curve mu ⟨KI, D⟩
  some ⟨ring, KI, D, mu, T, iAgg⟩

/-- The two points at a position, for a challenge. -/
def ringPoints (st : Statement) (s : List Scalar) (i : ℕ) (c : Scalar) :
    Option (Point × Point) := do
  let m ← st.ring[i]?
  let t ← st.T[i]?
  let s ← s[i]?
  let T ← curve.parsePoint t
  let L ← linCombSGPlusCP curve s c T
  let Hp ← curve.hashToPoint m.P.toList
  let R ← linCombSQPlusCR curve s Hp c st.iAgg
  some (L, R)

/-- The challenge of a position's points, which is the one at the next position. -/
def challenge (st : Statement) (msg : Uint256) (points : Point × Point) : Option Scalar :=
  stepChallengeML curve st.ring msg points.1 points.2 st.KI st.D

def ringStep (st : Statement) (msg : Uint256) (s : List Scalar) (i : ℕ) (c : Scalar) :
    Option Scalar :=
  (ringPoints curve st s i c).bind (challenge curve st msg)

def zeroScalar : Scalar := .replicate 32 0

/-- `SignMultiLayer` behind its sanity checks, for the member at `pi`. -/
def signChecked (ring : List MultiLayerMember) (pi : ℕ) (m : MultiLayerMember) (x z : Scalar)
    (msg : Uint256) (alpha : Scalar) (decoys : List Scalar) : Option Signature := do
  let Hp ← curve.hashToPoint m.P.toList
  let KI ← curve.scalarMultPoint x Hp
  let D ← curve.scalarMultPoint z Hp
  let st ← aggregate curve ring KI D
  let a ← aggregateScalar curve x z st.mu
  let L ← curve.scalarMultG alpha
  let R ← curve.scalarMultPoint alpha Hp
  let first ← challenge curve st msg (L, R)
  let c ← fillFrom (ringStep curve st msg decoys) ring.length pi first fun _ => zeroScalar
  let prod ← curve.seckeyTweakMul a (c pi)
  let neg ← curve.seckeyNegate prod
  let sPi ← curve.seckeyTweakAdd neg alpha
  if curve.seckeyVerify sPi then some ⟨KI, D, c 0, decoys.set pi sPi⟩ else none

/-- The random responses of all positions, of which the one at the signer's is not used. -/
def decoyList (N : ℕ) (decoys : ℕ → Seckey curve) : List Scalar :=
  (List.range N).map fun i => (decoys i).1

def signMultiLayer (ring : List MultiLayerMember) (pi : ℕ) (x z : Scalar) (msg : Uint256)
    (alpha : Seckey curve) (decoys : ℕ → Seckey curve) : Option Signature :=
  match ring[pi]? with
  | none => none
  | some m =>
    if hasDuplicateMembers ring then none
    else if curve.scalarMultG x ≠ some m.P then none
    else if curve.scalarMultG z ≠ some m.W then none
    else signChecked curve ring pi m x z msg alpha.1 (decoyList curve ring.length decoys)

def verifyMultiLayer (ring : List MultiLayerMember) (sig : Signature) (msg : Uint256) : Bool :=
  if ring = [] ∨ sig.s.length ≠ ring.length ∨ hasDuplicateMembers ring then false
  else if curve.parsePoint sig.keyImage = none ∨ curve.parsePoint sig.commitmentImage = none then
    false
  else
    match aggregate curve ring sig.keyImage sig.commitmentImage with
    | none => false
    | some st => walk (ringStep curve st msg sig.s) 0 ring.length sig.c0 = some sig.c0

def addScalars (a b : Scalar) : Option Scalar :=
  if curve.seckeyVerify a = false ∨ curve.seckeyVerify b = false then none
  else do
    let out ← curve.seckeyTweakAdd a b
    if curve.seckeyVerify out then some out else none

/-- The adaptor points are added at one position. -/
def shiftAt (pi : ℕ) (TG TH : Point) (i : ℕ) (points : Point × Point) :
    Option (Point × Point) :=
  if i = pi then do
    let Ls ← curve.addPoints points.1 TG
    let Rs ← curve.addPoints points.2 TH
    some (Ls, Rs)
  else some points

def preSigPoints (st : Statement) (s : List Scalar) (pi : ℕ) (TG TH : Point) (i : ℕ)
    (c : Scalar) : Option (Point × Point) :=
  (ringPoints curve st s i c).bind (shiftAt curve pi TG TH i)

def preSigStep (st : Statement) (msg : Uint256) (s : List Scalar) (pi : ℕ) (TG TH : Point)
    (i : ℕ) (c : Scalar) : Option Scalar :=
  (preSigPoints curve st s pi TG TH i c).bind (challenge curve st msg)

def verifyMultiLayerPreSig (ring : List MultiLayerMember) (sig : Signature) (msg : Uint256)
    (pi : ℕ) (TG TH : Point) : Bool :=
  if ring = [] ∨ sig.s.length ≠ ring.length ∨ ring.length ≤ pi ∨ hasDuplicateMembers ring then
    false
  else if curve.parsePoint sig.keyImage = none ∨ curve.parsePoint sig.commitmentImage = none ∨
      curve.parsePoint TG = none ∨ curve.parsePoint TH = none then false
  else
    match aggregate curve ring sig.keyImage sig.commitmentImage with
    | none => false
    | some st =>
      walk (preSigStep curve st msg sig.s pi TG TH) 0 ring.length sig.c0 = some sig.c0

end Code

section Specifications

variable {curve : Secp256k1 F E}

theorem linCombSGPlusCP_eq_some {s : Scalar} {P : E} :
    linCombSGPlusCP curve s c P = some out ↔ ∃ σ γ, curve.seckey s = some σ ∧
      curve.seckey c = some γ ∧ curve.parsePoint out = some (σ • curve.G + γ • P) :=
  pubkeyTweakMul_pair

theorem linCombSQPlusCR_eq_some {s : Scalar} {Q : Point} :
    linCombSQPlusCR curve s Q c R = some out ↔ ∃ q r, curve.parsePoint Q = some q ∧
      curve.parsePoint R = some r ∧ ∃ σ γ, curve.seckey s = some σ ∧ curve.seckey c = some γ ∧
      curve.parsePoint out = some (σ • q + γ • r) := by
  simp only [linCombSQPlusCR, bind_eq_bind]
  constructor
  · intro h
    obtain ⟨q, hq, h⟩ := bind_eq_some_iff.mp h
    obtain ⟨r, hr, h⟩ := bind_eq_some_iff.mp h
    exact ⟨q, r, hq, hr, pubkeyTweakMul_pair.mp h⟩
  · rintro ⟨q, r, hq, hr, h⟩
    rw [hq, hr, bind_some, bind_some]
    exact pubkeyTweakMul_pair.mpr h

theorem aggregateMember_eq_some {mu : Mu} :
    aggregateMember curve mu m = some out ↔ ∃ p w, curve.parsePoint m.P = some p ∧
      curve.parsePoint m.W = some w ∧ ∃ μP μC, curve.seckey mu.muP = some μP ∧
      curve.seckey mu.muC = some μC ∧ curve.parsePoint out = some (μP • p + μC • w) :=
  linCombSQPlusCR_eq_some

omit [DecidableEq E] in
theorem aggregateScalar_eq_some {out : Scalar} {mu : Mu} :
    aggregateScalar curve x z mu = some out ↔ ∃ a b μP μC, curve.seckey x = some a ∧
      curve.seckey z = some b ∧ curve.seckey mu.muP = some μP ∧ curve.seckey mu.muC = some μC ∧
      curve.seckey out = some (a * μP + b * μC) := by
  simp only [aggregateScalar, bind_eq_bind]
  constructor
  · intro h
    obtain ⟨t₁, ht₁, h⟩ := bind_eq_some_iff.mp h
    obtain ⟨t₂, ht₂, h⟩ := bind_eq_some_iff.mp h
    obtain ⟨sum, hsum, h⟩ := bind_eq_some_iff.mp h
    split at h
    · obtain rfl := some.inj h
      obtain ⟨a, μP, hx, hP, ht₁⟩ := seckeyTweakMul_eq_some.mp ht₁
      obtain ⟨b, μC, hz, hC, ht₂⟩ := seckeyTweakMul_eq_some.mp ht₂
      obtain ⟨u, v, hu, hv, hsum⟩ := seckeyTweakAdd_eq_some.mp hsum
      obtain rfl := some.inj (hu.symm.trans ht₁)
      obtain rfl := some.inj (hv.symm.trans (seckey_eq_some.mp ht₂).1)
      exact ⟨a, b, μP, μC, hx, hz, hP, hC, hsum⟩
    · contradiction
  · rintro ⟨a, b, μP, μC, hx, hz, hP, hC, hout⟩
    have ht₁ := @seckey_serializeScalar F E _ _ _ _ curve _
      (mul_ne_zero (seckey_ne_zero hx) (seckey_ne_zero hP))
    have ht₂ := @seckey_serializeScalar F E _ _ _ _ curve _
      (mul_ne_zero (seckey_ne_zero hz) (seckey_ne_zero hC))
    rw [seckeyTweakMul_eq_some.mpr ⟨a, μP, hx, hP, ht₁⟩, bind_some,
      seckeyTweakMul_eq_some.mpr ⟨b, μC, hz, hC, ht₂⟩, bind_some,
      seckeyTweakAdd_eq_some.mpr ⟨_, _, ht₁, (seckey_eq_some.mp ht₂).1, hout⟩, bind_some,
      if_pos (seckeyVerify_iff.mpr ⟨_, hout⟩)]

omit [DecidableEq E] in
theorem addScalars_eq_some {b out : Scalar} :
    addScalars curve a b = some out ↔ ∃ α β, curve.seckey a = some α ∧
      curve.seckey b = some β ∧ curve.seckey out = some (α + β) := by
  unfold addScalars
  constructor
  · intro h
    split at h
    · contradiction
    · rename_i hverify
      obtain ⟨sum, hsum, h⟩ := bind_eq_some_iff.mp h
      obtain ⟨β, hβ⟩ := seckey_of_not_false (not_or.mp hverify).2
      obtain ⟨α, β', hα, hβ', hsum⟩ := seckeyTweakAdd_eq_some.mp hsum
      obtain rfl := some.inj ((parseScalar_of_seckey hβ).symm.trans hβ')
      split at h
      · exact ⟨α, β, hα, hβ, some.inj h ▸ hsum⟩
      · contradiction
  · rintro ⟨α, β, hα, hβ, hout⟩
    rw [if_neg (by simp [seckeyVerify, hα, hβ])]
    refine bind_eq_some_iff.mpr
      ⟨out, (seckeyTweakAdd_iff hα (parseScalar_of_seckey hβ)).mpr hout, ?_⟩
    exact if_pos (seckeyVerify_iff.mpr ⟨_, hout⟩)

omit [DecidableEq E] in
theorem addScalars_iff {b out : Scalar} {α β : F} (ha : curve.seckey a = some α)
    (hb : curve.seckey b = some β) :
    addScalars curve a b = some out ↔ curve.seckey out = some (α + β) := by
  simp [addScalars_eq_some, ha, hb]

theorem aggregate_eq_some {ring : List MultiLayerMember} {KI D : Point} :
    aggregate curve ring KI D = some st ↔ st.ring = ring ∧ st.KI = KI ∧ st.D = D ∧
      multiLayerMu curve ring KI D = some st.mu ∧
      ring.mapM (aggregateMember curve st.mu) = some st.T ∧
      aggregateMember curve st.mu ⟨KI, D⟩ = some st.iAgg := by
  simp only [aggregate, bind_eq_bind]
  constructor
  · intro h
    obtain ⟨mu, hmu, h⟩ := bind_eq_some_iff.mp h
    obtain ⟨T, hT, h⟩ := bind_eq_some_iff.mp h
    obtain ⟨iAgg, hI, h⟩ := bind_eq_some_iff.mp h
    obtain rfl := some.inj h
    exact ⟨rfl, rfl, rfl, hmu, hT, hI⟩
  · rintro ⟨rfl, rfl, rfl, hmu, hT, hI⟩
    rw [hmu, bind_some, hT, bind_some, hI, bind_some]

omit [DecidableEq E] in
theorem seckey_of_multiLayerMu {ring : List MultiLayerMember} {KI D : Point} {mu : Mu}
    (h : multiLayerMu curve ring KI D = some mu) :
    (∃ μP, curve.seckey mu.muP = some μP) ∧ ∃ μC, curve.seckey mu.muC = some μC := by
  obtain ⟨muP, hP, h⟩ := bind_eq_some_iff.mp h
  obtain ⟨muC, hC, h⟩ := bind_eq_some_iff.mp h
  obtain rfl := some.inj h
  exact ⟨seckey_of_hashToScalarTagged hP, seckey_of_hashToScalarTagged hC⟩

/-- The points at a position, by what everything there is read as. -/
theorem ringPoints_eq_some :
    ringPoints curve st s i c = some (L, R) ↔ ∃ m t r Hp, st.ring[i]? = some m ∧
      st.T[i]? = some t ∧ s[i]? = some r ∧ curve.hashToPoint m.P.toList = some Hp ∧
      ∃ T hp I σ γ, curve.parsePoint t = some T ∧ curve.parsePoint Hp = some hp ∧
        curve.parsePoint st.iAgg = some I ∧ curve.seckey r = some σ ∧ curve.seckey c = some γ ∧
        curve.parsePoint L = some (σ • curve.G + γ • T) ∧
        curve.parsePoint R = some (σ • hp + γ • I) := by
  simp only [ringPoints, bind_eq_bind]
  constructor
  · intro h
    obtain ⟨m, hm, h⟩ := bind_eq_some_iff.mp h
    obtain ⟨t, ht, h⟩ := bind_eq_some_iff.mp h
    obtain ⟨r, hr, h⟩ := bind_eq_some_iff.mp h
    obtain ⟨T, hT, h⟩ := bind_eq_some_iff.mp h
    obtain ⟨L', hL, h⟩ := bind_eq_some_iff.mp h
    obtain ⟨Hp, hHp, h⟩ := bind_eq_some_iff.mp h
    obtain ⟨R', hR, h⟩ := bind_eq_some_iff.mp h
    obtain ⟨rfl, rfl⟩ := Prod.mk.inj (some.inj h)
    obtain ⟨σ, γ, hσ, hγ, hL⟩ := linCombSGPlusCP_eq_some.mp hL
    obtain ⟨hp, I, hhp, hI, σ', γ', hσ', hγ', hR⟩ := linCombSQPlusCR_eq_some.mp hR
    obtain rfl := some.inj (hσ.symm.trans hσ')
    obtain rfl := some.inj (hγ.symm.trans hγ')
    exact ⟨m, t, r, Hp, hm, ht, hr, hHp, T, hp, I, σ, γ, hT, hhp, hI, hσ, hγ, hL, hR⟩
  · rintro ⟨m, t, r, Hp, hm, ht, hr, hHp, T, hp, I, σ, γ, hT, hhp, hI, hσ, hγ, hL, hR⟩
    rw [hm, ht, hr, bind_some, bind_some, bind_some, hT, bind_some,
      linCombSGPlusCP_eq_some.mpr ⟨σ, γ, hσ, hγ, hL⟩, bind_some, hHp, bind_some,
      linCombSQPlusCR_eq_some.mpr ⟨hp, I, hhp, hI, σ, γ, hσ, hγ, hR⟩, bind_some]

end Specifications

theorem getElem?_of_mapM {α β : Type} {f : α → Option β} {as : List α} {bs : List β}
    (h : as.mapM f = some bs) {i : ℕ} {a : α} (ha : as[i]? = some a) :
    ∃ b, bs[i]? = some b ∧ f a = some b := by
  induction as generalizing bs i with
  | nil => simp at ha
  | cons e as ih =>
    rw [List.mapM_cons] at h
    obtain ⟨b, hb, h⟩ := bind_eq_some_iff.mp h
    obtain ⟨bs', hbs', h⟩ := bind_eq_some_iff.mp h
    obtain rfl := some.inj h
    cases i with
    | zero => exact ⟨b, rfl, (some.inj ha) ▸ hb⟩
    | succ i => exact ih hbs' ha

section Closing

variable {curve : Secp256k1 F E}
variable {hp : E}

/-- At a position, the aggregated member has the given logarithm, and so has the aggregated image
with respect to the hash of the member. -/
structure Knows (curve : Secp256k1 F E) (st : Statement) (pi : ℕ) (hp : E) (a : F) : Prop where
  base : ∃ m Hp, st.ring[pi]? = some m ∧ curve.hashToPoint m.P.toList = some Hp ∧
    curve.parsePoint Hp = some hp
  member : ∃ t, st.T[pi]? = some t ∧ curve.parsePoint t = some (a • curve.G)
  image : curve.parsePoint st.iAgg = some (a • hp)

/-- A response and a challenge stand for one scalar there. -/
theorem Knows.ringPoints_iff {a σ γ : F} (h : Knows curve st pi hp a) {r : Scalar}
    (hr : s[pi]? = some r) (hσ : curve.seckey r = some σ) (hγ : curve.seckey c = some γ) :
    ringPoints curve st s pi c = some (L, R) ↔
      curve.parsePoint L = some ((σ + γ * a) • curve.G) ∧
      curve.parsePoint R = some ((σ + γ * a) • hp) := by
  obtain ⟨⟨m, Hp, hm, hHp, hhp⟩, ⟨t, ht, hT⟩, hI⟩ := h
  rw [add_smul, add_smul, mul_smul, mul_smul]
  constructor
  · intro h
    obtain ⟨m', t', r', Hp', hm', ht', hr', hHp', T, hp', I, σ', γ', hT', hhp', hI', hσ', hγ',
      hL, hR⟩ := ringPoints_eq_some.mp h
    obtain rfl := some.inj (hm.symm.trans hm')
    obtain rfl := some.inj (ht.symm.trans ht')
    obtain rfl := some.inj (hr.symm.trans hr')
    obtain rfl := some.inj (hHp.symm.trans hHp')
    obtain rfl := some.inj (hT.symm.trans hT')
    obtain rfl := some.inj (hhp.symm.trans hhp')
    obtain rfl := some.inj (hI.symm.trans hI')
    obtain rfl := some.inj (hσ.symm.trans hσ')
    obtain rfl := some.inj (hγ.symm.trans hγ')
    exact ⟨hL, hR⟩
  · rintro ⟨hL, hR⟩
    exact ringPoints_eq_some.mpr ⟨m, t, r, Hp, hm, ht, hr, hHp, _, hp, _, σ, γ, hT, hhp, hI,
      hσ, hγ, hL, hR⟩

/-- Two secrets behind a member and its images are known with their weighted sum. -/
theorem knows_of_aggregate {ring : List MultiLayerMember} {KI D : Point}
    (hst : aggregate curve ring KI D = some st) {Hp : Point} {x z μP μC : F}
    (hm : ring[pi]? = some m) (hHp : curve.hashToPoint m.P.toList = some Hp)
    (hhp : curve.parsePoint Hp = some hp) (hP : curve.parsePoint m.P = some (x • curve.G))
    (hW : curve.parsePoint m.W = some (z • curve.G)) (hKI : curve.parsePoint KI = some (x • hp))
    (hD : curve.parsePoint D = some (z • hp)) (hμP : curve.seckey st.mu.muP = some μP)
    (hμC : curve.seckey st.mu.muC = some μC) : Knows curve st pi hp (μP * x + μC * z) := by
  obtain ⟨rfl, rfl, rfl, -, hT, hI⟩ := aggregate_eq_some.mp hst
  have hweighted : ∀ {q : MultiLayerMember} {b : E} {out : Point},
      aggregateMember curve st.mu q = some out → curve.parsePoint q.P = some (x • b) →
      curve.parsePoint q.W = some (z • b) →
      curve.parsePoint out = some ((μP * x + μC * z) • b) := by
    intro q b out hout hq hq'
    obtain ⟨p, w, hp, hw, μP', μC', hP', hC', hout⟩ := aggregateMember_eq_some.mp hout
    obtain rfl := some.inj (hq.symm.trans hp)
    obtain rfl := some.inj (hq'.symm.trans hw)
    obtain rfl := some.inj (hμP.symm.trans hP')
    obtain rfl := some.inj (hμC.symm.trans hC')
    rwa [add_smul, mul_smul, mul_smul]
  obtain ⟨t, ht, hmember⟩ := getElem?_of_mapM hT hm
  exact ⟨⟨m, Hp, hm, hHp, hhp⟩, ⟨t, ht, hweighted hmember hP hW⟩, hweighted hI hKI hD⟩

/-- What the signer has computed when it gets to the end. -/
theorem signChecked_eq_some {ring : List MultiLayerMember} {decoys : List Scalar} :
    signChecked curve ring pi m x z msg alpha decoys = some sig ↔
      ∃ Hp KI D st a L R first c prod neg sPi, curve.hashToPoint m.P.toList = some Hp ∧
        curve.scalarMultPoint x Hp = some KI ∧ curve.scalarMultPoint z Hp = some D ∧
        aggregate curve ring KI D = some st ∧ aggregateScalar curve x z st.mu = some a ∧
        curve.scalarMultG alpha = some L ∧ curve.scalarMultPoint alpha Hp = some R ∧
        challenge curve st msg (L, R) = some first ∧
        fillFrom (ringStep curve st msg decoys) ring.length pi first (fun _ => zeroScalar) =
          some c ∧
        curve.seckeyTweakMul a (c pi) = some prod ∧ curve.seckeyNegate prod = some neg ∧
        curve.seckeyTweakAdd neg alpha = some sPi ∧
        sig = ⟨KI, D, c 0, decoys.set pi sPi⟩ := by
  constructor
  · intro h
    obtain ⟨Hp, hHp, h⟩ := bind_eq_some_iff.mp h
    obtain ⟨KI, hKI, h⟩ := bind_eq_some_iff.mp h
    obtain ⟨D, hD, h⟩ := bind_eq_some_iff.mp h
    obtain ⟨st, hst, h⟩ := bind_eq_some_iff.mp h
    obtain ⟨a, ha, h⟩ := bind_eq_some_iff.mp h
    obtain ⟨L, hL, h⟩ := bind_eq_some_iff.mp h
    obtain ⟨R, hR, h⟩ := bind_eq_some_iff.mp h
    obtain ⟨first, hfirst, h⟩ := bind_eq_some_iff.mp h
    obtain ⟨c, hc, h⟩ := bind_eq_some_iff.mp h
    obtain ⟨prod, hprod, h⟩ := bind_eq_some_iff.mp h
    obtain ⟨neg, hneg, h⟩ := bind_eq_some_iff.mp h
    obtain ⟨sPi, hsPi, h⟩ := bind_eq_some_iff.mp h
    split at h
    · exact ⟨Hp, KI, D, st, a, L, R, first, c, prod, neg, sPi, hHp, hKI, hD, hst, ha, hL, hR,
        hfirst, hc, hprod, hneg, hsPi, (some.inj h).symm⟩
    · contradiction
  · rintro ⟨Hp, KI, D, st, a, L, R, first, c, prod, neg, sPi, hHp, hKI, hD, hst, ha, hL, hR,
      hfirst, hc, hprod, hneg, hsPi, rfl⟩
    obtain ⟨u, v, -, -, hvalid⟩ := seckeyTweakAdd_eq_some.mp hsPi
    refine bind_eq_some_iff.mpr ⟨Hp, hHp, ?_⟩
    refine bind_eq_some_iff.mpr ⟨KI, hKI, ?_⟩
    refine bind_eq_some_iff.mpr ⟨D, hD, ?_⟩
    refine bind_eq_some_iff.mpr ⟨st, hst, ?_⟩
    refine bind_eq_some_iff.mpr ⟨a, ha, ?_⟩
    refine bind_eq_some_iff.mpr ⟨L, hL, ?_⟩
    refine bind_eq_some_iff.mpr ⟨R, hR, ?_⟩
    refine bind_eq_some_iff.mpr ⟨first, hfirst, ?_⟩
    refine bind_eq_some_iff.mpr ⟨c, hc, ?_⟩
    refine bind_eq_some_iff.mpr ⟨prod, hprod, ?_⟩
    refine bind_eq_some_iff.mpr ⟨neg, hneg, ?_⟩
    refine bind_eq_some_iff.mpr ⟨sPi, hsPi, ?_⟩
    exact if_pos (seckeyVerify_iff.mpr ⟨_, hvalid⟩)

omit [DecidableEq E] in
/-- The response that closes the ring for a nonce and an aggregated secret. -/
theorem closing_response {prod neg sPi : Scalar} {κ α : F} (ha : curve.seckey a = some κ)
    (hα : curve.seckey alpha = some α) (hprod : curve.seckeyTweakMul a c = some prod)
    (hneg : curve.seckeyNegate prod = some neg) (hsPi : curve.seckeyTweakAdd neg alpha = some sPi) :
    ∃ γ, curve.seckey c = some γ ∧ curve.seckey sPi = some (α - γ * κ) := by
  obtain ⟨κ', γ, ha', hγ, hprod⟩ := seckeyTweakMul_eq_some.mp hprod
  obtain rfl := some.inj (ha.symm.trans ha')
  obtain ⟨π, hπ, hneg⟩ := seckeyNegate_eq_some.mp hneg
  obtain rfl := some.inj (hprod.symm.trans hπ)
  obtain ⟨ν, α', hν, hα', hsPi⟩ := seckeyTweakAdd_eq_some.mp hsPi
  obtain rfl := some.inj (hneg.symm.trans hν)
  obtain rfl := some.inj ((seckey_eq_some.mp hα).1.symm.trans hα')
  refine ⟨γ, hγ, ?_⟩
  rw [hsPi, neg_add_eq_sub, mul_comm]

theorem ringPoints_set (r : Scalar) (hne : i ≠ pi) :
    ringPoints curve st (s.set pi r) i = ringPoints curve st s i := by
  funext c
  simp only [ringPoints, List.getElem?_set_ne hne.symm]

theorem ringStep_set (r : Scalar) (hne : i ≠ pi) :
    ringStep curve st msg (s.set pi r) i = ringStep curve st msg s i := by
  funext c
  rw [ringStep, ringPoints_set r hne, ringStep]

/-- A ring that was filled in behind the points of some scalar is closed by the response that
makes the same points. -/
theorem walk_of_fill {N : ℕ} {κ γ lam : F} {first sPi : Scalar} {blank c : ℕ → Scalar}
    (hpi : pi < N) (hs : s.length = N) (hknows : Knows curve st pi hp κ)
    (hL : curve.parsePoint L = some (lam • curve.G)) (hR : curve.parsePoint R = some (lam • hp))
    (hfirst : challenge curve st msg (L, R) = some first)
    (hfill : fillFrom (ringStep curve st msg s) N pi first blank = some c)
    (hγ : curve.seckey (c pi) = some γ) (hsPi : curve.seckey sPi = some (lam - γ * κ)) :
    walk (ringStep curve st msg (s.set pi sPi)) 0 N (c 0) = some (c 0) := by
  refine walk_closes hpi hfill (fun i _ hne => ringStep_set sPi hne) ?_
  have hget : (s.set pi sPi)[pi]? = some sPi := List.getElem?_set_self (hs ▸ hpi)
  have hpoints : ringPoints curve st (s.set pi sPi) pi (c pi) = some (L, R) := by
    rw [hknows.ringPoints_iff hget hsPi hγ, sub_add_cancel]
    exact ⟨hL, hR⟩
  rw [ringStep, hpoints, bind_some, hfirst]

theorem parse_of_aggregate {ring : List MultiLayerMember} {KI D : Point}
    (hst : aggregate curve ring KI D = some st) :
    curve.parsePoint KI ≠ none ∧ curve.parsePoint D ≠ none := by
  obtain ⟨-, -, -, -, -, hI⟩ := aggregate_eq_some.mp hst
  obtain ⟨p, w, hp, hw, -⟩ := aggregateMember_eq_some.mp hI
  simp [hp, hw]

theorem verifyMultiLayer_iff {ring : List MultiLayerMember} :
    verifyMultiLayer curve ring sig msg = true ↔ ring ≠ [] ∧ sig.s.length = ring.length ∧
      (ring.map (·.P)).Nodup ∧
      ∃ st, aggregate curve ring sig.keyImage sig.commitmentImage = some st ∧
        walk (ringStep curve st msg sig.s) 0 ring.length sig.c0 = some sig.c0 := by
  unfold verifyMultiLayer
  cases hst : aggregate curve ring sig.keyImage sig.commitmentImage with
  | none => simp
  | some st =>
    obtain ⟨hKI, hD⟩ := parse_of_aggregate hst
    simp [hKI, hD, hasDuplicateMembers, and_assoc]

theorem verifyMultiLayerPreSig_iff {ring : List MultiLayerMember} {TG TH : Point} :
    verifyMultiLayerPreSig curve ring sig msg pi TG TH = true ↔ pi < ring.length ∧
      sig.s.length = ring.length ∧ (ring.map (·.P)).Nodup ∧
      curve.parsePoint TG ≠ none ∧ curve.parsePoint TH ≠ none ∧
      ∃ st, aggregate curve ring sig.keyImage sig.commitmentImage = some st ∧
        walk (preSigStep curve st msg sig.s pi TG TH) 0 ring.length sig.c0 = some sig.c0 := by
  unfold verifyMultiLayerPreSig
  cases hst : aggregate curve ring sig.keyImage sig.commitmentImage with
  | none => simp
  | some st =>
    obtain ⟨hKI, hD⟩ := parse_of_aggregate hst
    by_cases hpi : pi < ring.length
    · have hne : ring ≠ [] := List.ne_nil_of_length_pos (by omega)
      simp [hKI, hD, hne, hpi, hasDuplicateMembers, and_assoc]
    · simp [Nat.not_lt.mp hpi, hpi]

theorem signMultiLayer_eq_some {ring : List MultiLayerMember} {alpha : Seckey curve}
    {decoys : ℕ → Seckey curve} :
    signMultiLayer curve ring pi x z msg alpha decoys = some sig ↔ ∃ m, ring[pi]? = some m ∧
      (ring.map (·.P)).Nodup ∧ curve.scalarMultG x = some m.P ∧
      curve.scalarMultG z = some m.W ∧
      signChecked curve ring pi m x z msg alpha.1 (decoyList curve ring.length decoys) =
        some sig := by
  unfold signMultiLayer
  cases hm : ring[pi]? with
  | none => simp
  | some m => simp [hasDuplicateMembers]

theorem verifyMultiLayer_of_signChecked {ring : List MultiLayerMember} {pi : ℕ}
    {m : MultiLayerMember} {x z : Scalar} {msg : Uint256} {alpha : Seckey curve}
    {decoys : ℕ → Seckey curve} {sig : Signature} (hm : ring[pi]? = some m)
    (hnodup : (ring.map (·.P)).Nodup) (hP : curve.scalarMultG x = some m.P)
    (hW : curve.scalarMultG z = some m.W)
    (h : signChecked curve ring pi m x z msg alpha.1 (decoyList curve ring.length decoys) =
      some sig) : verifyMultiLayer curve ring sig msg = true := by
  obtain ⟨Hp, KI, D, st, a, L, R, first, c, prod, neg, sPi, hHp, hKI, hD, hst, ha, hL, hR,
    hfirst, hfill, hprod, hneg, hsPi, rfl⟩ := signChecked_eq_some.mp h
  obtain ⟨hpi, -⟩ := List.getElem?_eq_some_iff.mp hm
  have hlength : (decoyList curve ring.length decoys).length = ring.length := by
    simp [decoyList]
  refine verifyMultiLayer_iff.mpr ⟨List.ne_nil_of_length_pos (by omega), by simp [hlength],
    hnodup, st, hst, ?_⟩
  obtain ⟨ξ, hp, hξ, hhp, hKI⟩ := scalarMultPoint_eq_some.mp hKI
  obtain ⟨ζ, hζ, hW⟩ := scalarMultG_eq_some.mp hW
  obtain ⟨α, hα, hL⟩ := scalarMultG_eq_some.mp hL
  rw [scalarMultPoint_iff hζ hhp] at hD
  rw [scalarMultPoint_iff hα hhp] at hR
  rw [scalarMultG_iff hξ] at hP
  obtain ⟨ξ', ζ', μP, μC, hξ', hζ', hμP, hμC, ha⟩ := aggregateScalar_eq_some.mp ha
  obtain rfl := some.inj (hξ.symm.trans hξ')
  obtain rfl := some.inj (hζ.symm.trans hζ')
  have hknows := knows_of_aggregate hst hm hHp hhp hP hW hKI hD hμP hμC
  obtain ⟨γ, hγ, hsPi⟩ := closing_response ha hα hprod hneg hsPi
  rw [mul_comm ξ, mul_comm ζ] at hsPi
  exact walk_of_fill hpi hlength hknows hL hR hfirst hfill hγ hsPi

theorem keyImage_of_signChecked {ring : List MultiLayerMember} {decoys : List Scalar}
    (h : signChecked curve ring pi m x z msg alpha decoys = some sig) :
    computeKeyImage curve m.P x = some sig.keyImage := by
  obtain ⟨Hp, KI, D, st, a, L, R, first, c, prod, neg, sPi, hHp, hKI, -, -, -, -, -, -, -, -, -, -,
    rfl⟩ := signChecked_eq_some.mp h
  rw [computeKeyImage, hHp]
  exact hKI

/-- Whatever ring, message and random choices a signature was made with, it is accepted, and its
key image is that of the signer's key alone. -/
theorem verifyMultiLayer_of_signMultiLayer {ring : List MultiLayerMember} {pi : ℕ}
    {x z : Scalar} {msg : Uint256} {alpha : Seckey curve} {decoys : ℕ → Seckey curve}
    {sig : Signature}
    (h : signMultiLayer curve ring pi x z msg alpha decoys = some sig) :
    verifyMultiLayer curve ring sig msg = true ∧
      ∃ m, ring[pi]? = some m ∧ computeKeyImage curve m.P x = some sig.keyImage := by
  obtain ⟨m, hm, hnodup, hP, hW, h⟩ := signMultiLayer_eq_some.mp h
  exact ⟨verifyMultiLayer_of_signChecked hm hnodup hP hW h, m, hm, keyImage_of_signChecked h⟩

end Closing

section Sample

instance neZero_six : NeZero 6 := ⟨by decide⟩

def sampleScalar (k : ℕ) : Scalar :=
  ⟨List.replicate 31 0 ++ [UInt8.ofNat k], by simp⟩

def samplePoint (k : ℕ) : Point := List.Vector.cons 2 (sampleScalar k)

/-- The integers modulo 7 as a curve, with the sum of the bytes as the hash. -/
def sampleCurve : Secp256k1 (ZMod 7) (ZMod 7) where
  G := 1
  parsePoint b := (List.finRange 7).find? fun k => k ≠ 0 ∧ samplePoint k.val = b
  serializePoint p := samplePoint p.val
  parseScalar b := (List.finRange 7).find? fun k => sampleScalar k.val = b
  serializeScalar a := sampleScalar a.val
  sha256 bytes := sampleScalar (bytes.foldl (fun n b => n + b.toNat) 0 % 6 + 1)
  generator_ne_zero := by decide
  generates p := ⟨p, (mul_one p).symm⟩
  parse_serialize := by decide +kernel
  ne_zero_of_parse b p h := (by simpa using List.find?_some h : p ≠ 0 ∧ _).1
  serialize_of_parse b p h := (by simpa using List.find?_some h : p ≠ 0 ∧ _).2
  parse_serializeScalar := by decide +kernel
  serializeScalar_of_parse b a h := by simpa using List.find?_some h

/-- The keys from 1 to 6. -/
def sampleKey (k : Fin 6) : Seckey sampleCurve :=
  ⟨sampleScalar (k.val + 1), by revert k; decide +kernel⟩

/-- A ring of three members, of which the second has the secrets 3 and 4. -/
def sampleRing : List MultiLayerMember :=
  [⟨samplePoint 1, samplePoint 5⟩, ⟨samplePoint 3, samplePoint 4⟩, ⟨samplePoint 6, samplePoint 2⟩]

def sampleMessage : Uint256 := .replicate 32 9

def sampleSigned : Option Signature :=
  signMultiLayer sampleCurve sampleRing 1 (sampleScalar 3) (sampleScalar 4) sampleMessage
    (sampleKey 2) fun _ => sampleKey 1

theorem verifyMultiLayer_of_signMultiLayer_sample :
    ∃ sig, signMultiLayer sampleCurve sampleRing 1 (sampleScalar 3) (sampleScalar 4) sampleMessage
        (sampleKey 2) (fun _ => sampleKey 1) = some sig ∧
      verifyMultiLayer sampleCurve sampleRing sig sampleMessage = true ∧
      ∃ m, sampleRing[1]? = some m ∧
        computeKeyImage sampleCurve m.P (sampleScalar 3) = some sig.keyImage := by
  have hsome : sampleSigned.isSome = true := by decide +kernel
  obtain ⟨sig, hsig⟩ := isSome_iff_exists.mp hsome
  exact ⟨sig, hsig, verifyMultiLayer_of_signMultiLayer hsig⟩

end Sample

end Pricoin.RingSig
