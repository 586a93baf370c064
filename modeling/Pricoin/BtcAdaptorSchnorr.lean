import Pricoin.RingSig

/-!
Adaptor signatures for the Bitcoin side of a swap. A pre-signature is made for the
nonce moved by the adaptor point, so that adding the adaptor secret to its scalar gives
a BIP340 signature, and the difference of the two scalars is the secret. Keys and
nonces are written without the parity of their second coordinate and stand for the
point where it is even. The signer negates an odd key and draws nonces until the moved
one is even.
-/
namespace Pricoin.BtcAdaptorSchnorr

open ByteStreams KeyImageFile Transactions CurveBytes CurveBytes.Secp256k1 RingSig Option

variable {F E : Type} [Field F] [AddCommGroup E] [Module F E] {msg : Uint256}
  {presig : SignatureBytes} {pubX : XOnlyPubKey} {adaptorTG : Point}

abbrev XOnlyPubKey := Bytes 32

/-- The 64 bytes of a signature or a pre-signature. -/
structure SignatureBytes where
  Rx : XOnlyPubKey
  s : Scalar
  deriving DecidableEq

def challengeTag : List UInt8 := ascii "BIP0340/challenge"

def kMaxRetries : ℕ := 32

section Code

variable (curve : Secp256k1 F E)

/-- The first byte of an encoding tells the parity of the second coordinate. -/
def hasOddY (p : E) : Bool := (curve.serializePoint p).head = 3

def xOnly (p : E) : XOnlyPubKey := (curve.serializePoint p).tail

/-- What the library promises for keys without parity and for reading a scalar modulo the
order. -/
structure Bip340 where
  /-- `secp256k1_scalar_set_b32`. -/
  reduce : Scalar → F
  reduce_of_parse : ∀ b a, curve.parseScalar b = some a → reduce b = a
  head_cases : ∀ p, p ≠ 0 → (curve.serializePoint p).head = 2 ∨ (curve.serializePoint p).head = 3
  hasOddY_neg : ∀ p, p ≠ 0 → hasOddY curve (-p) = !hasOddY curve p
  xOnly_neg : ∀ p, p ≠ 0 → xOnly curve (-p) = xOnly curve p

def xonlyPubkeyParse (x : XOnlyPubKey) : Option E := curve.parsePoint (List.Vector.cons 2 x)

def liftXEvenY (x : XOnlyPubKey) : Option E := do
  let p ← xonlyPubkeyParse curve x
  curve.parsePoint (List.Vector.cons 2 (xOnly curve p))

def taggedHash (tag body : List UInt8) : Uint256 :=
  curve.sha256 ((curve.sha256 tag).toList ++ (curve.sha256 tag).toList ++ body)

def bip340Challenge (Rx Px : XOnlyPubKey) (msg : Uint256) : Uint256 :=
  taggedHash curve challengeTag (Rx.toList ++ Px.toList ++ msg.toList)

variable [DecidableEq F]

/-- A hash that is no valid key is not reduced but refused. -/
def tryReduceToScalar (hash : Uint256) : Option Scalar :=
  if curve.seckeyVerify hash then some hash else none

def negateScalar (s : Scalar) : Option Scalar :=
  if curve.seckeyVerify s = false then none else curve.seckeyNegate s

/-- The key whose public key has an even second coordinate. -/
def effectiveKey (P : E) (priv : Scalar) : Option Scalar :=
  if hasOddY curve P then negateScalar curve priv else some priv

variable [DecidableEq E]

/-- One round of the loop. Wherever the loop goes on there is nothing. -/
def preSigAttempt (T : E) (Px : XOnlyPubKey) (dEff : Scalar) (msg : Uint256)
    (k : Seckey curve) : Option SignatureBytes := do
  let Rint ← curve.pubkeyCreate k.1
  let Rpub ← curve.pubkeyCombine [Rint, T]
  let Rx := xOnly curve Rpub
  if hasOddY curve Rpub then none
  else do
    let e ← tryReduceToScalar curve (bip340Challenge curve Rx Px msg)
    let prod ← curve.seckeyTweakMul e dEff
    let sPrime ← curve.seckeyTweakAdd k.1 prod
    if curve.seckeyVerify sPrime = false then none else some ⟨Rx, sPrime⟩

/-- The nonces drawn in the rounds are an argument. -/
def makeAdaptorPreSig (priv : Scalar) (msg : Uint256) (adaptorTG : Point)
    (nonces : ℕ → Seckey curve) : Option SignatureBytes :=
  if curve.seckeyVerify priv = false then none
  else do
    let T ← curve.parsePoint adaptorTG
    let P ← curve.pubkeyCreate priv
    let dEff ← effectiveKey curve P priv
    (List.range kMaxRetries).findSome? fun attempt =>
      preSigAttempt curve T (xOnly curve P) dEff msg (nonces attempt)

def verifyAdaptorPreSig (pubX : XOnlyPubKey) (msg : Uint256) (adaptorTG : Point)
    (presig : SignatureBytes) : Bool :=
  if curve.seckeyVerify presig.s = false then false
  else (do
    let R ← liftXEvenY curve presig.Rx
    let P ← liftXEvenY curve pubX
    let T ← curve.parsePoint adaptorTG
    let e ← tryReduceToScalar curve (bip340Challenge curve presig.Rx pubX msg)
    let sG ← curve.pubkeyCreate presig.s
    let lhs ← curve.pubkeyCombine [sG, T]
    let eP ← curve.pubkeyTweakMul P e
    let rhs ← curve.pubkeyCombine [R, eP]
    some (decide (curve.serializePoint lhs = curve.serializePoint rhs))).getD false

omit [DecidableEq E] in
def adapt (presig : SignatureBytes) (t : Scalar) (adaptorTG : Point) : Option SignatureBytes :=
  if curve.seckeyVerify t = false then none
  else if curve.scalarMultG t ≠ some adaptorTG then none
  else if curve.seckeyVerify presig.s = false then none
  else do
    let s ← curve.seckeyTweakAdd presig.s t
    if curve.seckeyVerify s = false then none else some ⟨presig.Rx, s⟩

omit [DecidableEq E] in
def extract (presig sig : SignatureBytes) (adaptorTG : Point) : Option Scalar :=
  if curve.seckeyVerify presig.s = false then none
  else if curve.seckeyVerify sig.s = false then none
  else do
    let negPre ← curve.seckeyNegate presig.s
    let t ← curve.seckeyTweakAdd sig.s negPre
    if curve.seckeyVerify t = false then none
    else if curve.scalarMultG t ≠ some adaptorTG then none
    else some t

/-- `secp256k1_schnorrsig_verify`. A first half that is no coordinate of the field is the
coordinate of no point. -/
def schnorrsigVerify (lib : Bip340 curve) (pubX : XOnlyPubKey) (msg : Uint256)
    (sig : SignatureBytes) : Bool :=
  (do
    let s ← curve.parseScalar sig.s
    let P ← xonlyPubkeyParse curve pubX
    let R := s • curve.G - lib.reduce (bip340Challenge curve sig.Rx pubX msg) • P
    some (decide (R ≠ 0 ∧ hasOddY curve R = false ∧ xOnly curve R = sig.Rx))).getD false

end Code

section Lifting

variable {curve : Secp256k1 F E} (lib : Bip340 curve)
variable {p : E}

include lib

/-- Thirty-two bytes stand for the point with that first coordinate and an even second one. -/
theorem xonlyPubkeyParse_iff {x : XOnlyPubKey} :
    xonlyPubkeyParse curve x = some p ↔ p ≠ 0 ∧ hasOddY curve p = false ∧ xOnly curve p = x := by
  constructor
  · intro h
    have hbytes : curve.serializePoint p = List.Vector.cons 2 x := curve.serialize_of_parse _ _ h
    refine ⟨curve.ne_zero_of_parse _ _ h, ?_, ?_⟩
    · rw [hasOddY, hbytes, List.Vector.head_cons]
      decide
    · rw [xOnly, hbytes, List.Vector.tail_cons]
  · rintro ⟨hne, heven, rfl⟩
    have hhead : (curve.serializePoint p).head = 2 :=
      (lib.head_cases p hne).resolve_right (of_decide_eq_false heven)
    rw [xonlyPubkeyParse, xOnly, ← hhead, List.Vector.cons_head_tail]
    exact curve.parse_serialize p hne

theorem liftXEvenY_iff {x : XOnlyPubKey} :
    liftXEvenY curve x = some p ↔ p ≠ 0 ∧ hasOddY curve p = false ∧ xOnly curve p = x := by
  rw [liftXEvenY, ← xonlyPubkeyParse_iff lib]
  constructor
  · intro h
    obtain ⟨q, hq, h⟩ := bind_eq_some_iff.mp h
    rwa [((xonlyPubkeyParse_iff lib).mp hq).2.2] at h
  · intro h
    refine bind_eq_some_iff.mpr ⟨p, h, ?_⟩
    rw [((xonlyPubkeyParse_iff lib).mp h).2.2]
    exact h

/-- A key of odd parity is lifted to its negative. -/
theorem liftXEvenY_xOnly (hp : p ≠ 0) :
    liftXEvenY curve (xOnly curve p) = some (if hasOddY curve p then -p else p) := by
  rw [liftXEvenY_iff lib]
  cases hodd : hasOddY curve p with
  | false => exact ⟨hp, hodd, rfl⟩
  | true =>
    refine ⟨neg_ne_zero.mpr hp, ?_, lib.xOnly_neg p hp⟩
    rw [if_pos rfl, lib.hasOddY_neg p hp, hodd]
    rfl

end Lifting

section Characterisations

variable [DecidableEq F] [DecidableEq E]
variable {curve : Secp256k1 F E}

omit [DecidableEq E] in
theorem tryReduceToScalar_eq_some {hash : Uint256} {e : Scalar} :
    tryReduceToScalar curve hash = some e ↔ e = hash ∧ ∃ a, curve.seckey hash = some a := by
  unfold tryReduceToScalar
  split
  · rename_i hvalid
    rw [some.injEq, and_iff_left (seckeyVerify_iff.mp hvalid), eq_comm]
  · rename_i hinvalid
    simp [← seckeyVerify_iff, hinvalid]

omit [DecidableEq F] in
theorem pubkeyCombine_eq_some {p q r : E} :
    curve.pubkeyCombine [p, q] = some r ↔ p + q ≠ 0 ∧ p + q = r := by
  rw [pubkeyCombine, List.sum_pair]
  split <;> simp_all

theorem preSigAttempt_eq_some {T : E} {Px : XOnlyPubKey} {dEff : Scalar} {k : Seckey curve}
    (h : preSigAttempt curve T Px dEff msg k = some presig) :
    ∃ κ e d, κ • curve.G + T ≠ 0 ∧ hasOddY curve (κ • curve.G + T) = false ∧
      xOnly curve (κ • curve.G + T) = presig.Rx ∧
      curve.seckey (bip340Challenge curve presig.Rx Px msg) = some e ∧
      curve.seckey dEff = some d ∧ curve.seckey presig.s = some (κ + e * d) := by
  obtain ⟨Rint, hRint, h⟩ := bind_eq_some_iff.mp h
  obtain ⟨κ, hκ, rfl⟩ := map_eq_some_iff.mp hRint
  obtain ⟨Rpub, hRpub, h⟩ := bind_eq_some_iff.mp h
  obtain ⟨hne, rfl⟩ := pubkeyCombine_eq_some.mp hRpub
  dsimp only at h
  split at h
  · contradiction
  rename_i hodd
  obtain ⟨e, he, h⟩ := bind_eq_some_iff.mp h
  obtain ⟨prod, hprod, h⟩ := bind_eq_some_iff.mp h
  obtain ⟨sPrime, hsPrime, h⟩ := bind_eq_some_iff.mp h
  split at h
  · contradiction
  obtain rfl := some.inj h
  obtain ⟨rfl, a, ha⟩ := tryReduceToScalar_eq_some.mp he
  obtain ⟨a', d, ha', hd, hprod⟩ := seckeyTweakMul_eq_some.mp hprod
  obtain rfl : a' = a := some.inj (ha'.symm.trans ha)
  rw [seckeyTweakAdd_iff hκ (parseScalar_of_seckey hprod)] at hsPrime
  exact ⟨κ, a', d, hne, Bool.not_eq_true _ ▸ hodd, rfl, ha, hd, hsPrime⟩

/-- The equation that is checked. A sum at infinity is refused. -/
theorem verifyAdaptorPreSig_iff :
    verifyAdaptorPreSig curve pubX msg adaptorTG presig = true ↔
      ∃ s R P T e, curve.seckey presig.s = some s ∧ liftXEvenY curve presig.Rx = some R ∧
        liftXEvenY curve pubX = some P ∧ curve.parsePoint adaptorTG = some T ∧
        curve.seckey (bip340Challenge curve presig.Rx pubX msg) = some e ∧
        s • curve.G + T ≠ 0 ∧ s • curve.G + T = R + e • P := by
  have hgetD : ∀ o : Option Bool, o.getD false = true ↔ o = some true := by
    intro o
    cases o <;> simp
  unfold verifyAdaptorPreSig
  constructor
  · intro h
    split at h
    · contradiction
    rename_i hvalid
    obtain ⟨s, hs⟩ := seckey_of_not_false hvalid
    rw [hgetD] at h
    obtain ⟨R, hR, h⟩ := bind_eq_some_iff.mp h
    obtain ⟨P, hP, h⟩ := bind_eq_some_iff.mp h
    obtain ⟨T, hT, h⟩ := bind_eq_some_iff.mp h
    obtain ⟨e, he, h⟩ := bind_eq_some_iff.mp h
    obtain ⟨sG, hsG, h⟩ := bind_eq_some_iff.mp h
    obtain ⟨lhs, hlhs, h⟩ := bind_eq_some_iff.mp h
    obtain ⟨eP, heP, h⟩ := bind_eq_some_iff.mp h
    obtain ⟨rhs, hrhs, h⟩ := bind_eq_some_iff.mp h
    obtain ⟨rfl, a, ha⟩ := tryReduceToScalar_eq_some.mp he
    rw [pubkeyCreate, hs, map_some, some.injEq] at hsG
    rw [pubkeyTweakMul, ha, map_some, some.injEq] at heP
    subst hsG heP
    obtain ⟨hne, rfl⟩ := pubkeyCombine_eq_some.mp hlhs
    obtain ⟨hne', rfl⟩ := pubkeyCombine_eq_some.mp hrhs
    have hbytes := of_decide_eq_true (some.inj h)
    rw [serializePoint_eq_iff hne, curve.parse_serialize _ hne', some.injEq] at hbytes
    exact ⟨s, R, P, T, a, hs, hR, hP, hT, ha, hne, hbytes.symm⟩
  · rintro ⟨s, R, P, T, a, hs, hR, hP, hT, ha, hne, heq⟩
    rw [if_neg (by rw [seckeyVerify, hs]; simp), hgetD, hR, hP, hT,
      tryReduceToScalar_eq_some.mpr ⟨rfl, a, ha⟩, pubkeyCreate, hs]
    have hlhs := (@pubkeyCombine_eq_some F E _ _ _ _ curve _ _ _).mpr ⟨hne, rfl⟩
    have hrhs := (@pubkeyCombine_eq_some F E _ _ _ _ curve _ _ _).mpr ⟨heq ▸ hne, rfl⟩
    simp only [bind_eq_bind, bind_some, map_some, pubkeyTweakMul, ha, hlhs,
      hrhs, heq, decide_true]

end Characterisations

section Swaps

variable [DecidableEq F] [DecidableEq E]
variable {curve : Secp256k1 F E}
variable {τ : F}

/-- The key that signs belongs to the lifted public key, whatever the parity. -/
theorem makeAdaptorPreSig_eq_some (lib : Bip340 curve) {priv : Scalar} {d : F} {T : E}
    {nonces : ℕ → Seckey curve} (hpriv : curve.seckey priv = some d)
    (hT : curve.parsePoint adaptorTG = some T)
    (h : makeAdaptorPreSig curve priv msg adaptorTG nonces = some presig) :
    ∃ κ e δ, liftXEvenY curve (xOnly curve (d • curve.G)) = some (δ • curve.G) ∧
      liftXEvenY curve presig.Rx = some (κ • curve.G + T) ∧
      curve.seckey (bip340Challenge curve presig.Rx (xOnly curve (d • curve.G)) msg) = some e ∧
      curve.seckey presig.s = some (κ + e * δ) := by
  have hP : d • curve.G ≠ 0 := smul_ne_zero (seckey_ne_zero hpriv) curve.generator_ne_zero
  rw [makeAdaptorPreSig, if_neg (by rw [seckeyVerify, hpriv]; simp), hT, pubkeyCreate,
    hpriv] at h
  change (effectiveKey curve (d • curve.G) priv).bind _ = some presig at h
  obtain ⟨dEff, hdEff, h⟩ := bind_eq_some_iff.mp h
  obtain ⟨attempt, -, h⟩ := List.exists_of_findSome?_eq_some h
  obtain ⟨κ, e, δ, hne, heven, hRx, he, hδ, hs⟩ := preSigAttempt_eq_some h
  refine ⟨κ, e, δ, ?_, (liftXEvenY_iff lib).mpr ⟨hne, heven, hRx⟩, he, hs⟩
  rw [liftXEvenY_xOnly lib hP]
  unfold effectiveKey at hdEff
  split at hdEff
  · rename_i hodd
    rw [negateScalar, if_neg (by rw [seckeyVerify, hpriv]; simp), seckeyNegate_iff hpriv, hδ,
      some.injEq] at hdEff
    rw [if_pos hodd, hdEff, neg_smul]
  · rename_i hodd
    obtain rfl := some.inj hdEff
    obtain rfl : d = δ := some.inj (hpriv.symm.trans hδ)
    rw [if_neg hodd]

/-- A pre-signature that was made is accepted just when it can be adapted. -/
theorem verifyAdaptorPreSig_of_make (lib : Bip340 curve) {priv : Scalar} {d t : F}
    {nonces : ℕ → Seckey curve} (hpriv : curve.seckey priv = some d)
    (hT : curve.parsePoint adaptorTG = some (t • curve.G))
    (h : makeAdaptorPreSig curve priv msg adaptorTG nonces = some presig) :
    verifyAdaptorPreSig curve (xOnly curve (d • curve.G)) msg adaptorTG presig = true ↔
      curve.value presig.s + t ≠ 0 := by
  obtain ⟨κ, e, δ, hP, hR, he, hs⟩ := makeAdaptorPreSig_eq_some lib hpriv hT h
  have hsum : (κ + e * δ) • curve.G + t • curve.G = (κ + e * δ + t) • curve.G :=
    (add_smul _ _ _).symm
  have hequation : (κ + e * δ) • curve.G + t • curve.G =
      κ • curve.G + t • curve.G + e • δ • curve.G := by
    rw [add_smul, mul_smul, add_right_comm]
  rw [verifyAdaptorPreSig_iff, value_of_seckey hs]
  constructor
  · rintro ⟨s, R, P, T, e', hs', -, -, hT', -, hne, -⟩ hzero
    obtain rfl : _ = s := some.inj (hs.symm.trans hs')
    obtain rfl : _ = T := some.inj (hT.symm.trans hT')
    rw [hsum, hzero, zero_smul] at hne
    exact hne rfl
  · intro hne
    refine ⟨_, _, _, _, e, hs, hR, hP, hT, he, ?_, hequation⟩
    rw [hsum]
    exact smul_ne_zero hne curve.generator_ne_zero

/-- The adapted signature has the lifted nonce, and its scalar is not zero. -/
theorem adapt_of_verify {t : Scalar}
    (hverify : verifyAdaptorPreSig curve pubX msg adaptorTG presig = true)
    (ht : curve.seckey t = some τ) (hT : curve.parsePoint adaptorTG = some (τ • curve.G)) :
    ∃ s sig, curve.seckey presig.s = some s ∧ adapt curve presig t adaptorTG = some sig ∧
      sig.Rx = presig.Rx ∧ curve.seckey sig.s = some (s + τ) := by
  obtain ⟨s, R, P, T, e, hs, -, -, hT', -, hne, -⟩ := verifyAdaptorPreSig_iff.mp hverify
  obtain rfl : _ = T := some.inj (hT.symm.trans hT')
  have hsum : s + τ ≠ 0 := by
    rintro hzero
    rw [← add_smul, hzero, zero_smul] at hne
    exact hne rfl
  have hadapted := @seckey_serializeScalar F E _ _ _ _ curve _ hsum
  refine ⟨s, ⟨presig.Rx, curve.serializeScalar (s + τ)⟩, hs, ?_, rfl, hadapted⟩
  rw [adapt, if_neg (by rw [seckeyVerify, ht]; simp),
    if_neg (not_not.mpr ((scalarMultG_iff ht).mpr hT)), if_neg (by rw [seckeyVerify, hs]; simp),
    (seckeyTweakAdd_iff hs (parseScalar_of_seckey ht)).mpr hadapted]
  exact if_neg (by rw [seckeyVerify, hadapted]; simp)

omit [DecidableEq E] in
theorem adapt_eq_none {t : Scalar} (ht : curve.seckey t = some τ)
    (hzero : curve.value presig.s + τ = 0) : adapt curve presig t adaptorTG = none := by
  unfold adapt
  split_ifs with _ _ hvalid
  · rfl
  · rfl
  · rfl
  · obtain ⟨s, hs⟩ := seckey_of_not_false hvalid
    rw [value_of_seckey hs] at hzero
    rw [seckeyTweakAdd_eq_none hs (parseScalar_of_seckey ht) hzero]
    rfl

theorem schnorrsigVerify_of_adapted (lib : Bip340 curve) {sig : SignatureBytes} {s : F}
    (hverify : verifyAdaptorPreSig curve pubX msg adaptorTG presig = true)
    (hT : curve.parsePoint adaptorTG = some (τ • curve.G)) (hs : curve.seckey presig.s = some s)
    (hRx : sig.Rx = presig.Rx) (hsig : curve.seckey sig.s = some (s + τ)) :
    schnorrsigVerify curve lib pubX msg sig = true := by
  obtain ⟨s', R, P, T, e, hs', hR, hP, hT', he, -, heq⟩ := verifyAdaptorPreSig_iff.mp hverify
  obtain rfl : _ = s' := some.inj (hs.symm.trans hs')
  obtain rfl : _ = T := some.inj (hT.symm.trans hT')
  have hnonce : (s + τ) • curve.G -
      lib.reduce (bip340Challenge curve presig.Rx pubX msg) • P = R := by
    rw [lib.reduce_of_parse _ _ (parseScalar_of_seckey he), add_smul, heq, add_sub_cancel_right]
  have hparse : xonlyPubkeyParse curve pubX = some P :=
    (xonlyPubkeyParse_iff lib).mpr ((liftXEvenY_iff lib).mp hP)
  simp only [schnorrsigVerify, parseScalar_of_seckey hsig, hparse, hRx, hnonce,
    bind_eq_bind, bind_some, getD_some, decide_eq_true_eq]
  exact (liftXEvenY_iff lib).mp hR

omit [DecidableEq E] in
theorem extract_of_adapted {sig : SignatureBytes} {t : Scalar} {s : F}
    (ht : curve.seckey t = some τ) (hT : curve.parsePoint adaptorTG = some (τ • curve.G))
    (hs : curve.seckey presig.s = some s) (hsig : curve.seckey sig.s = some (s + τ)) :
    extract curve presig sig adaptorTG = some t := by
  have hneg : curve.seckey (curve.serializeScalar (-s)) = some (-s) :=
    seckey_serializeScalar (neg_ne_zero.mpr (seckey_ne_zero hs))
  have hdiff : curve.seckeyTweakAdd sig.s (curve.serializeScalar (-s)) = some t := by
    rw [seckeyTweakAdd_iff hsig (parseScalar_of_seckey hneg), add_neg_cancel_comm]
    exact ht
  rw [extract, if_neg (by rw [seckeyVerify, hs]; simp), if_neg (by rw [seckeyVerify, hsig]; simp),
    (seckeyNegate_iff hs).mpr hneg]
  refine bind_eq_some_iff.mpr ⟨_, rfl, bind_eq_some_iff.mpr ⟨t, hdiff, ?_⟩⟩
  rw [if_neg (by rw [seckeyVerify, ht]; simp), if_neg (not_not.mpr ((scalarMultG_iff ht).mpr hT))]

/-- A pre-signature that was made is accepted unless its adapted scalar is zero. An accepted one,
whoever made it, is adapted by the secret to a valid signature that gives the secret away. One
with a vanishing adapted scalar is not adapted. -/
theorem preSignature_accepted_and_adapts (lib : Bip340 curve) :
    (∀ priv d msg adaptorTG t nonces presig, curve.seckey priv = some d →
      curve.parsePoint adaptorTG = some (t • curve.G) →
      makeAdaptorPreSig curve priv msg adaptorTG nonces = some presig →
      (verifyAdaptorPreSig curve (xOnly curve (d • curve.G)) msg adaptorTG presig = true ↔
        curve.value presig.s + t ≠ 0)) ∧
    (∀ pubX msg adaptorTG presig t τ,
      verifyAdaptorPreSig curve pubX msg adaptorTG presig = true → curve.seckey t = some τ →
      curve.parsePoint adaptorTG = some (τ • curve.G) →
      ∃ sig, adapt curve presig t adaptorTG = some sig ∧
        schnorrsigVerify curve lib pubX msg sig = true ∧
        extract curve presig sig adaptorTG = some t) ∧
    ∀ presig t τ adaptorTG, curve.seckey t = some τ → curve.value presig.s + τ = 0 →
      adapt curve presig t adaptorTG = none := by
  refine ⟨fun priv d msg adaptorTG t nonces presig hpriv hT h =>
    verifyAdaptorPreSig_of_make lib hpriv hT h, ?_, fun presig t τ adaptorTG ht hzero =>
    adapt_eq_none ht hzero⟩
  intro pubX msg adaptorTG presig t τ hverify ht hT
  obtain ⟨s, sig, hs, hadapt, hRx, hsig⟩ := adapt_of_verify hverify ht hT
  exact ⟨sig, hadapt, schnorrsigVerify_of_adapted lib hverify hT hs hRx hsig,
    extract_of_adapted ht hT hs hsig⟩

end Swaps

section Sample

/-- The smaller of a number and its negative, with 2 or 3 in front. -/
def evenPoint (k : ZMod 7) : Point :=
  List.Vector.cons (if k.val ≤ 3 then 2 else 3) (sampleScalar (min k.val (7 - k.val)))

theorem generator_ne_zero_sample : sampleCurve.G ≠ 0 := sampleCurve.generator_ne_zero

theorem generates_sample (p : ZMod 7) : ∃ a : ZMod 7, p = a • sampleCurve.G :=
  sampleCurve.generates p

theorem parse_serializeScalar_sample (a : ZMod 7) :
    sampleCurve.parseScalar (sampleCurve.serializeScalar a) = some a :=
  sampleCurve.parse_serializeScalar a

theorem serializeScalar_of_parse_sample (b : Scalar) (a : ZMod 7)
    (h : sampleCurve.parseScalar b = some a) : sampleCurve.serializeScalar a = b :=
  sampleCurve.serializeScalar_of_parse b a h

def evenCurve : Secp256k1 (ZMod 7) (ZMod 7) :=
  { sampleCurve with
    generator_ne_zero := generator_ne_zero_sample
    generates := generates_sample
    parse_serializeScalar := parse_serializeScalar_sample
    serializeScalar_of_parse := serializeScalar_of_parse_sample
    parsePoint := fun b => (List.finRange 7).find? fun k => k ≠ 0 ∧ evenPoint k = b
    serializePoint := evenPoint
    parse_serialize := by decide +kernel
    ne_zero_of_parse := fun b p h => (by simpa using List.find?_some h : p ≠ 0 ∧ _).1
    serialize_of_parse := fun b p h => (by simpa using List.find?_some h : p ≠ 0 ∧ _).2 }

theorem value_of_parse_even (b : Scalar) (a : ZMod 7) (h : evenCurve.parseScalar b = some a) :
    evenCurve.value b = a := by
  rw [value, h, getD_some]

def evenLibrary : Bip340 evenCurve where
  reduce := evenCurve.value
  reduce_of_parse := value_of_parse_even
  head_cases := by decide +kernel
  hasOddY_neg := by decide +kernel
  xOnly_neg := by decide +kernel

def evenKey (k : Fin 6) : Seckey evenCurve := ⟨sampleScalar (k.val + 1), (sampleKey k).2⟩

def zeroMessage : Uint256 := .replicate 32 0

/-- The response is the negative of the secret. -/
theorem preSig_of_vanishing :
    makeAdaptorPreSig evenCurve (sampleScalar 4) zeroMessage (evenPoint 1) (fun _ => evenKey 0) =
      some ⟨sampleScalar 2, sampleScalar 6⟩ ∧
    verifyAdaptorPreSig evenCurve (xOnly evenCurve 4) zeroMessage (evenPoint 1)
      ⟨sampleScalar 2, sampleScalar 6⟩ = false ∧
    evenCurve.value (sampleScalar 6) + 1 = 0 := by
  decide +kernel

theorem preSignature_accepted_and_adapts_odd :
    ∃ presig sig, makeAdaptorPreSig evenCurve (sampleScalar 5) zeroMessage (evenPoint 2)
        (fun _ => evenKey 5) = some presig ∧
      verifyAdaptorPreSig evenCurve (xOnly evenCurve 5) zeroMessage (evenPoint 2) presig = true ∧
      adapt evenCurve presig (sampleScalar 2) (evenPoint 2) = some sig ∧
      schnorrsigVerify evenCurve evenLibrary (xOnly evenCurve 5) zeroMessage sig = true ∧
      extract evenCurve presig sig (evenPoint 2) = some (sampleScalar 2) := by
  have hmake : makeAdaptorPreSig evenCurve (sampleScalar 5) zeroMessage (evenPoint 2)
      (fun _ => evenKey 5) = some ⟨sampleScalar 1, sampleScalar 3⟩ := by
    decide +kernel
  have hkey : evenCurve.seckey (sampleScalar 5) = some 5 := by decide +kernel
  have hsecret : evenCurve.seckey (sampleScalar 2) = some 2 := by decide +kernel
  have hT : evenCurve.parsePoint (evenPoint 2) = some ((2 : ZMod 7) • evenCurve.G) := by
    decide +kernel
  obtain ⟨hmade, hadapts, -⟩ := preSignature_accepted_and_adapts evenLibrary
  have hverify := (hmade _ _ _ _ _ _ _ hkey hT hmake).mpr (by decide +kernel)
  obtain ⟨sig, hadapt, hvalid, hextract⟩ := hadapts _ _ _ _ _ _ hverify hsecret hT
  exact ⟨_, sig, hmake, hverify, hadapt, hvalid, hextract⟩

end Sample

end Pricoin.BtcAdaptorSchnorr
