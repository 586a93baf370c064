import Pricoin.Checks
import Pricoin.StealthPayments

/-!
Shares of a joint stealth output. Each party multiplies the sender's point by its own
view key, and the sum of the two points is what the joint view key would give. From it
both derive the one-time key that the sender has paid to. The hash of the point is added
to the spend key of one of them, so that the two keys are shares of the key of the
output.
-/
namespace Pricoin.JointShares

open ByteStreams KeyImageFile Transactions CurveBytes CurveBytes.Secp256k1 RingSig Option
open JointStealth StealthScan StealthKeys StealthPayments

variable {F E : Type} [Field F] [AddCommGroup E] [Module F E] [DecidableEq F] [DecidableEq E]
  {b S P : Point} {joint : PublicAddress Point} {r : Scalar}

/-- The two views of the curve library, as one. The order of the group is odd. -/
structure JointCurve (F E : Type) [Field F] [AddCommGroup E] [Module F E] [DecidableEq F]
    [DecidableEq E] extends StealthCurve F E where
  secp : Secp F E
  parse_secp : ∀ b : Point, secp.parse b.toList = parsePoint b
  serialize_secp : ∀ p, secp.serialize p = serializePoint p
  two_ne_zero : (2 : F) ≠ 0

structure JointShare where
  xShare : Scalar
  blind : Uint256
  value : Int64
  jointPubkey : Point
  vout : UInt32
  xPub : Option Point
  deriving DecidableEq

def CPubKey.point (key : CPubKey) : Option Point :=
  if h : key.vch.length = 33 then some ⟨key.vch, h⟩ else none

def stealthAddress (a : PublicAddress Point) : StealthAddress :=
  ⟨.ofBytes a.view.toList, .ofBytes a.spend.toList⟩

section Code

variable (curve : JointCurve F E) (proofs : ProofLibrary)

/-- The joint address of two parties. -/
def jointAddress (a b : PublicAddress Point) : Option (PublicAddress Point) := do
  let joint ← combine curve.secp (stealthAddress a) (stealthAddress b)
  let view ← CPubKey.point joint.view
  let spend ← CPubKey.point joint.spend
  some ⟨view, spend⟩

def scanPartial (selfViewPriv : Scalar) (R : Point) : Option Point :=
  if !curve.seckeyVerify selfViewPriv then none else curve.scalarMultPoint selfViewPriv R

def combinePartials (partialA partialB : Point) : Option Point :=
  addPubkeys curve.secp partialA.toList partialB.toList

/-- The shared point and the one-time key as a party derives them. The view key of the other
party is not known, and its own stands in for it. -/
def jointKey (self : Identity Point) (myPartial otherPartial otherSpend : Point)
    (vout : UInt32) : Except String (Point × Point) :=
  match combinePartials curve myPartial otherPartial with
  | none => .error "partial combine failed"
  | some sharedPoint =>
    let other : PublicAddress Point := ⟨self.publicAddress.view, otherSpend⟩
    match jointAddress curve self.publicAddress other with
    | none => .error "joint key combine failed"
    | some joint =>
      let shared := deriveSharedSecret curve.toStealthCurve sharedPoint vout
      match deriveOneTimePubkey curve.toStealthCurve shared joint.spend with
      | none => .error "one-time pubkey derivation failed"
      | some P => .ok (sharedPoint, P)

def xShare (self : Identity Point) (shared : Uint256) (absorb : Bool) : Except String Scalar :=
  if absorb then
    match deriveOneTimePriv curve.toStealthCurve shared self.spend with
    | none => .error "one-time priv derivation failed"
    | some x => .ok x
  else .ok self.spend

/-- The share of a party in the output of a transaction. -/
def loadshare (self : Identity Point) (tx : Transaction) (vout : UInt32)
    (myPartial otherPartial otherSpend : Point) (absorb : Bool) : Except String JointShare :=
  if !validKey otherSpend then
    .error "other_spend_pubkey is not a valid compressed secp256k1 point"
  else if tx.version ≠ pricoinCTVersion then .error "tx is not a v4 confidential tx"
  else match tx.vout[vout.toNat]?, tx.ctBundle.outputs[vout.toNat]? with
    | some txout, some out =>
      match jointKey curve self myPartial otherPartial otherSpend vout with
      | .error e => .error e
      | .ok (sharedPoint, P) =>
        if txout.scriptPubKey ≠ keyHashScript (scanLibrary curve.toStealthCurve proofs) P then
          .error "scriptPubKey mismatch — partials don't decode to this output"
        else
          let nonce := deriveRangeProofNonce curve.toStealthCurve sharedPoint vout
          match proofs.rewindRangeProof out.commitment out.rangeproof out.scriptPubkey nonce with
          | none => .error "rangeproof rewind failed"
          | some (value, blind) =>
            let shared := deriveSharedSecret curve.toStealthCurve sharedPoint vout
            match xShare curve self shared absorb with
            | .error e => .error e
            | .ok x => .ok
              { xShare := x
                blind
                value := value.toInt64
                jointPubkey := P
                vout
                xPub := curve.scalarMultG x }
    | _, _ => .error "vout out of range"

end Code

section Library

variable {curve : JointCurve F E} {proofs : ProofLibrary}

theorem addPubkeys_eq (a b : Point) :
    addPubkeys curve.secp a.toList b.toList = curve.addPoints a b := by
  have hlength : ¬ (a.toList.length ≠ 33 ∨ b.toList.length ≠ 33) := by simp
  rw [addPubkeys, if_neg hlength, addPoints, curve.parse_secp, curve.parse_secp]
  refine congrArg _ (funext fun pa => congrArg _ (funext fun pb => ?_))
  rw [pubkeyCombine, List.sum_pair]
  split
  · rfl
  · rw [bind_eq_bind, bind_some, curve.serialize_secp]

theorem combinePartials_eq (a b : Point) :
    combinePartials curve a b = curve.addPoints a b :=
  addPubkeys_eq a b

theorem scanPartial_eq (view : Scalar) (R : Point) :
    scanPartial curve view R = curve.scalarMultPoint view R := by
  unfold scanPartial
  split
  · rename_i hinvalid
    symm
    rw [eq_none_iff_forall_ne_some]
    intro out h
    obtain ⟨a, p, ha, -⟩ := scalarMultPoint_eq_some.mp h
    have hview : curve.seckeyVerify view = true := seckeyVerify_iff.mpr ⟨a, ha⟩
    simp [hview] at hinvalid
  · rfl

theorem vch_of_validKey (hb : validKey b = true) : (CPubKey.ofBytes b.toList).vch = b.toList := by
  unfold validKey CPubKey.ofBytes at hb
  rw [CPubKey.ofBytes]
  split at hb
  · rename_i hsize
    rw [dif_pos hsize]
  · contradiction

theorem isValid_stealthAddress (a : PublicAddress Point) :
    (stealthAddress a).isValid = validAddress a := by
  have hcompressed : ∀ b : Point, validKey b = true →
      (CPubKey.ofBytes b.toList).isCompressed = true := by
    intro b hb
    rw [CPubKey.isCompressed, vch_of_validKey hb]
    simp
  unfold StealthAddress.isValid stealthAddress validAddress
  change ((validKey a.view && _ && validKey a.spend) && _) = _
  cases hview : validKey a.view with
  | false => rfl
  | true =>
    cases hspend : validKey a.spend with
    | false => simp
    | true => simp [hcompressed _ hview, hcompressed _ hspend]

theorem point_of_validKey (hb : validKey b = true) :
    CPubKey.point (.ofBytes b.toList) = some b := by
  unfold CPubKey.point
  simp only [vch_of_validKey hb]
  simp

theorem validKey_of_addPoints {a c : Point} (h : curve.addPoints a b = some c) :
    validKey a = true ∧ validKey b = true ∧ validKey c = true := by
  obtain ⟨p, q, hp, hq, hc⟩ := addPoints_eq_some.mp h
  exact ⟨validKey_of_parse hp, validKey_of_parse hq, validKey_of_parse hc⟩

theorem combine_stealthAddress {a b : PublicAddress Point} (ha : validAddress a = true)
    (hb : validAddress b = true) :
    combine curve.secp (stealthAddress a) (stealthAddress b) =
      (curve.addPoints a.view b.view).bind fun view =>
        (curve.addPoints a.spend b.spend).bind fun spend =>
          some (stealthAddress ⟨view, spend⟩) := by
  have hkeys : ∀ x : PublicAddress Point, validAddress x = true →
      (stealthAddress x).view.vch = x.view.toList ∧
      (stealthAddress x).spend.vch = x.spend.toList := by
    intro x hx
    rw [validAddress, Bool.and_eq_true] at hx
    exact ⟨vch_of_validKey hx.1, vch_of_validKey hx.2⟩
  rw [combine, isValid_stealthAddress, isValid_stealthAddress, ha, hb, (hkeys a ha).1,
    (hkeys a ha).2, (hkeys b hb).1, (hkeys b hb).2, addPubkeys_eq, addPubkeys_eq]
  rw [if_neg (by decide)]
  cases hview : curve.addPoints a.view b.view with
  | none => rfl
  | some view =>
    cases hspend : curve.addPoints a.spend b.spend with
    | none => rfl
    | some spend =>
      have hjoint : (stealthAddress ⟨view, spend⟩).isValid = true := by
        rw [isValid_stealthAddress, validAddress, (validKey_of_addPoints hview).2.2,
          (validKey_of_addPoints hspend).2.2]
        rfl
      change (if !(stealthAddress ⟨view, spend⟩).isValid then none else _) = _
      rw [hjoint]
      rfl

/-- The joint keys are the sums of the keys. -/
theorem jointAddress_eq_some {a b : PublicAddress Point} :
    jointAddress curve a b = some joint ↔ curve.addPoints a.view b.view = some joint.view ∧
      curve.addPoints a.spend b.spend = some joint.spend := by
  constructor
  · intro h
    obtain ⟨_, hcombine, h⟩ := bind_eq_some_iff.mp h
    have hvalid : validAddress a = true ∧ validAddress b = true := by
      unfold combine at hcombine
      split at hcombine
      · contradiction
      · rename_i hvalid
        simpa [isValid_stealthAddress] using hvalid
    rw [combine_stealthAddress hvalid.1 hvalid.2] at hcombine
    obtain ⟨view, hview, hcombine⟩ := bind_eq_some_iff.mp hcombine
    obtain ⟨spend, hspend, hcombine⟩ := bind_eq_some_iff.mp hcombine
    obtain rfl := some.inj hcombine
    obtain ⟨_, hpoint, h⟩ := bind_eq_some_iff.mp h
    obtain rfl := some.inj
      ((point_of_validKey (validKey_of_addPoints hview).2.2).symm.trans hpoint)
    obtain ⟨_, hpoint, h⟩ := bind_eq_some_iff.mp h
    obtain rfl := some.inj
      ((point_of_validKey (validKey_of_addPoints hspend).2.2).symm.trans hpoint)
    obtain rfl := some.inj h
    exact ⟨hview, hspend⟩
  · rintro ⟨hview, hspend⟩
    obtain ⟨hva, hvb, hv⟩ := validKey_of_addPoints hview
    obtain ⟨hsa, hsb, hs⟩ := validKey_of_addPoints hspend
    have ha : validAddress a = true := by rw [validAddress, hva, hsa]; rfl
    have hb : validAddress b = true := by rw [validAddress, hvb, hsb]; rfl
    rw [jointAddress, combine_stealthAddress ha hb, hview, hspend]
    simp [stealthAddress, point_of_validKey hv, point_of_validKey hs]

end Library

section Shares

variable {curve : JointCurve F E} {proofs : ProofLibrary}

/-- The sum of the partial points is the multiple by the sum of the view keys. -/
theorem combine_scanPartials (va vb : curve.Seckey) (R : Point) :
    ((scanPartial curve va.1 R).bind fun p => (scanPartial curve vb.1 R).bind fun q =>
      combinePartials curve p q) =
    (curve.seckeyTweakAdd va.1 vb.1).bind fun v => ecdhPoint curve.toStealthCurve v R := by
  obtain ⟨a, ha⟩ := seckeyVerify_iff.mp va.2
  obtain ⟨b, hb⟩ := seckeyVerify_iff.mp vb.2
  apply Option.ext
  intro out
  simp only [bind_eq_some_iff, scanPartial_eq, combinePartials_eq, ecdhPoint_eq,
    seckeyTweakAdd_iff ha (parseScalar_of_seckey hb)]
  constructor
  · rintro ⟨p, hp, q, hq, hsum⟩
    obtain ⟨a', P, ha', hP, hp⟩ := scalarMultPoint_eq_some.mp hp
    obtain rfl := some.inj (ha.symm.trans ha')
    rw [scalarMultPoint_iff hb hP] at hq
    rw [addPoints_iff hp hq, ← add_smul] at hsum
    have hne : a + b ≠ 0 := left_ne_zero_of_smul (curve.ne_zero_of_parse _ _ hsum)
    refine ⟨curve.serializeScalar (a + b), seckey_serializeScalar hne, ?_⟩
    exact (scalarMultPoint_iff (seckey_serializeScalar hne) hP).mpr hsum
  · rintro ⟨v, hv, hout⟩
    obtain ⟨c, P, hc, hP, hout⟩ := scalarMultPoint_eq_some.mp hout
    obtain rfl := some.inj (hv.symm.trans hc)
    have hPne := curve.ne_zero_of_parse _ _ hP
    have hp := curve.parse_serialize _ (smul_ne_zero (seckey_ne_zero ha) hPne)
    have hq := curve.parse_serialize _ (smul_ne_zero (seckey_ne_zero hb) hPne)
    refine ⟨_, (scalarMultPoint_iff ha hP).mpr hp, _, (scalarMultPoint_iff hb hP).mpr hq, ?_⟩
    rw [addPoints_iff hp hq, ← add_smul]
    exact hout

variable {va sa vb sb : curve.Seckey} {a x b y : F} {R pa pb : Point} {p : E} {vout : UInt32}

theorem jointAddress_spend {view view' spend spend' : Point} {A A' B B' : E}
    (hA : curve.parsePoint view = some A) (hA' : curve.parsePoint view' = some A')
    (hB : curve.parsePoint spend = some B) (hB' : curve.parsePoint spend' = some B') :
    jointAddress curve ⟨view, spend⟩ ⟨view', spend'⟩ = some joint ↔
      curve.parsePoint joint.view = some (A + A') ∧
      curve.parsePoint joint.spend = some (B + B') := by
  rw [jointAddress_eq_some, addPoints_iff hA hA', addPoints_iff hB hB']

theorem parse_serialize_sum (curve : JointCurve F E) {x y : F} (hne : x + y ≠ 0) :
    curve.parsePoint (curve.serializePoint (x • curve.G + y • curve.G)) =
      some (x • curve.G + y • curve.G) := by
  refine curve.parse_serialize _ ?_
  rw [← add_smul]
  exact smul_ne_zero hne curve.generator_ne_zero

/-- What a party derives: the multiple of the sender's point by the sum of the view keys, and
the sum of the spend keys moved by the hash of that multiple. -/
theorem jointKey_eq_ok (ha : curve.seckey va.1 = some a) (hx : curve.seckey sa.1 = some x)
    (hy : curve.seckey sb.1 = some y) (hpa : curve.parsePoint pa = some (a • p))
    (hpb : curve.parsePoint pb = some (b • p)) :
    jointKey curve (identity curve.toStealthCurve va sa) pa pb
        ((keyLibrary curve.toStealthCurve).getPubKey sb.1) vout = .ok (S, P) ↔
      x + y ≠ 0 ∧ curve.parsePoint S = some ((a + b) • p) ∧
      ∃ h, curve.seckey (deriveSharedSecret curve.toStealthCurve S vout) = some h ∧
        curve.parsePoint P = some ((h + (x + y)) • curve.G) := by
  have hA := scalarMultG_getPubKey ha
  have hX := scalarMultG_getPubKey hx
  have hY := scalarMultG_getPubKey hy
  have hcombine : ∀ S, combinePartials curve pa pb = some S ↔
      curve.parsePoint S = some ((a + b) • p) := by
    intro S
    rw [combinePartials_eq, addPoints_iff hpa hpb, add_smul]
  constructor
  · intro h
    unfold jointKey at h
    split at h
    · contradiction
    rename_i sharedPoint hshared
    dsimp only at h
    split at h
    · contradiction
    rename_i joint hjoint
    split at h
    · contradiction
    rename_i P' hP
    obtain ⟨rfl, rfl⟩ := Prod.mk.inj (Except.ok.inj h)
    have hspend := ((jointAddress_spend hA hA hX hY).mp hjoint).2
    obtain ⟨t, B, ht, hB, hP⟩ := deriveOneTimePubkey_eq_some.mp hP
    obtain rfl := some.inj (hspend.symm.trans hB)
    rw [← add_smul] at hspend
    rw [← add_smul, ← add_smul] at hP
    exact ⟨left_ne_zero_of_smul (curve.ne_zero_of_parse _ _ hspend), (hcombine _).mp hshared, t,
      ht, hP⟩
  · rintro ⟨hne, hS, t, ht, hP⟩
    have hdouble : a + a ≠ 0 := by
      rw [← two_mul]
      exact mul_ne_zero curve.two_ne_zero (seckey_ne_zero ha)
    have hview := parse_serialize_sum curve hdouble
    have hspend := parse_serialize_sum curve hne
    have hjoint : jointAddress curve (identity curve.toStealthCurve va sa).publicAddress
        ⟨(identity curve.toStealthCurve va sa).publicAddress.view,
          (keyLibrary curve.toStealthCurve).getPubKey sb.1⟩ =
        some ⟨curve.serializePoint (a • curve.G + a • curve.G),
          curve.serializePoint (x • curve.G + y • curve.G)⟩ :=
      (jointAddress_spend hA hA hX hY).mpr ⟨hview, hspend⟩
    have hkey : deriveOneTimePubkey curve.toStealthCurve
        (deriveSharedSecret curve.toStealthCurve S vout)
        (curve.serializePoint (x • curve.G + y • curve.G)) = some P := by
      refine deriveOneTimePubkey_eq_some.mpr ⟨t, _, ht, hspend, ?_⟩
      rw [hP, ← add_smul, ← add_smul]
    rw [jointKey, (hcombine S).mpr hS]
    dsimp only
    rw [hjoint]
    dsimp only
    rw [hkey]

/-- The sender succeeds where both sums are points and the hash is a scalar. -/
theorem payTo_joint (joint : PublicAddress Point) {e : F} {A B : E} (he : curve.seckey r = some e)
    (hA : curve.parsePoint joint.view = some A) (hB : curve.parsePoint joint.spend = some B) {h : F}
    (hS : curve.parsePoint S = some (e • A))
    (hh : curve.seckey (deriveSharedSecret curve.toStealthCurve S vout) = some h)
    (hP : curve.parsePoint P = some (h • curve.G + B)) :
    ∃ dest, payTo curve.toStealthCurve proofs r ⟨.main, joint, 0⟩ vout = .ok dest ∧
      dest.otp = P := by
  have hvalid : validAddress joint = true := validAddress_of_parse hA hB
  have hr : curve.seckeyVerify r = true := seckeyVerify_iff.mpr ⟨e, he⟩
  have hpub := curve.parse_serialize _ (smul_ne_zero (seckey_ne_zero he) curve.generator_ne_zero)
  have hR : computeStealthR curve.toStealthCurve r joint .main =
      some (curve.serializePoint (e • curve.G)) := by
    rw [computeStealthR, hr, hvalid]
    exact (scalarMultG_iff he).mpr hpub
  have hecdh : ecdhPoint curve.toStealthCurve r joint.view = some S := by
    rw [ecdhPoint_eq, scalarMultPoint_iff he hA, hS]
  have hkey : deriveOneTimePubkey curve.toStealthCurve
      (deriveSharedSecret curve.toStealthCurve S vout) joint.spend = some P :=
    deriveOneTimePubkey_eq_some.mpr ⟨h, B, hh, hB, hP⟩
  refine ⟨⟨keyHashScript (scanLibrary curve.toStealthCurve proofs) P,
    curve.serializePoint (e • curve.G), deriveRangeProofNonce curve.toStealthCurve S vout, P⟩,
    ?_, rfl⟩
  rw [payTo]
  dsimp only
  rw [hR, hecdh]
  dsimp only
  rw [hkey]

theorem xShare_true (hx : curve.seckey sa.1 = some x) {shared : Uint256} {t : F}
    (ht : curve.seckey shared = some t) {u : Scalar} :
    xShare curve (identity curve.toStealthCurve va sa) shared true = .ok u ↔
      curve.seckey u = some (x + t) := by
  rw [← seckeyTweakAdd_iff hx (parseScalar_of_seckey ht), ← deriveOneTimePriv_eq]
  change (match deriveOneTimePriv curve.toStealthCurve shared sa.1 with
    | none => .error "one-time priv derivation failed"
    | some x => .ok x) = Except.ok u ↔ _
  cases deriveOneTimePriv curve.toStealthCurve shared sa.1 with
  | none => simp
  | some v => simp

theorem xShare_eq_error (hx : curve.seckey sa.1 = some x) {shared : Uint256}
    (h : curve.seckeyNegate sa.1 = some shared) :
    xShare curve (identity curve.toStealthCurve va sa) shared true =
      .error "one-time priv derivation failed" := by
  have hnone : deriveOneTimePriv curve.toStealthCurve shared
      (identity curve.toStealthCurve va sa).spend = none := by
    rw [deriveOneTimePriv_eq]
    exact seckeyTweakAdd_eq_none hx (parseScalar_of_seckey ((seckeyNegate_iff hx).mp h))
      (add_neg_cancel x)
  rw [xShare, if_pos rfl, hnone]

/-- Two keys are shares of the key of a point, and their images are shares of its image. -/
def Fit (curve : JointCurve F E) (u v : Scalar) (P : Point) : Prop :=
  ∃ z, curve.seckeyTweakAdd u v = some z ∧ curve.scalarMultG z = some P ∧
    ∀ I J, computeKeyImage curve.toSecp256k1 P u = some I →
      computeKeyImage curve.toSecp256k1 P v = some J →
      curve.addPoints I J = computeKeyImage curve.toSecp256k1 P z

theorem fit_of_sum {u v : Scalar} {c d : F} (hu : curve.seckey u = some c)
    (hv : curve.seckey v = some d) (hP : curve.parsePoint P = some ((c + d) • curve.G)) :
    Fit curve u v P := by
  have hne : c + d ≠ 0 := left_ne_zero_of_smul (curve.ne_zero_of_parse _ _ hP)
  have hz : curve.seckey (curve.serializeScalar (c + d)) = some (c + d) :=
    seckey_serializeScalar hne
  refine ⟨curve.serializeScalar (c + d), ?_, (scalarMultG_iff hz).mpr hP, ?_⟩
  · rw [seckeyTweakAdd_iff hu (parseScalar_of_seckey hv), hz]
  · intro I J hI hJ
    obtain ⟨Hp, hHp, hI⟩ := bind_eq_some_iff.mp hI
    obtain ⟨q, hq⟩ := parse_of_hashToPoint hHp
    rw [computeKeyImage, hHp] at hJ
    rw [scalarMultPoint_iff hu hq] at hI
    replace hJ := (scalarMultPoint_iff hv hq).mp hJ
    have hK := curve.parse_serialize _ (smul_ne_zero hne (curve.ne_zero_of_parse _ _ hq))
    have himage : computeKeyImage curve.toSecp256k1 P (curve.serializeScalar (c + d)) =
        some (curve.serializePoint ((c + d) • q)) := by
      rw [computeKeyImage, hHp]
      exact (scalarMultPoint_iff hz hq).mpr hK
    rw [himage, addPoints_iff hI hJ, hK, add_smul]

theorem loadshare_of_carries {self : Identity Point} {otherSpend : Point}
    (hother : validKey otherSpend = true)
    (hkey : jointKey curve self pa pb otherSpend vout = .ok (S, P)) {dest : ResolvedDest}
    (hspk : dest.spk = keyHashScript (scanLibrary curve.toStealthCurve proofs) P)
    (hnonce : dest.nonce = deriveRangeProofNonce curve.toStealthCurve S vout) {amount : Int64}
    {blind : Uint256} {out : CTOutput} {txout : TxOut} {tx : Transaction}
    (hbuilt : buildOutput proofs vout.toNat amount blind dest = .ok (out, txout))
    (htx : Carries tx vout out txout) (absorb : Bool) :
    loadshare curve proofs self tx vout pa pb otherSpend absorb =
      (xShare curve self (deriveSharedSecret curve.toStealthCurve S vout) absorb).map fun x =>
        { xShare := x
          blind
          value := amount
          jointPubkey := P
          vout
          xPub := curve.scalarMultG x } := by
  obtain ⟨commit, proof, hcommit, hproof, rfl, rfl⟩ := buildOutput_eq_ok hbuilt
  have hrewind := proofs.rewind_create _ _ _ _ _ _ hcommit hproof
  rw [hnonce] at hrewind
  rw [loadshare, hother, htx.output, htx.txout]
  dsimp only
  rw [if_neg (by decide), if_neg (not_not.mpr htx.version), hkey]
  dsimp only
  rw [if_neg (not_not.mpr hspk), hrewind]
  dsimp only
  cases xShare curve self (deriveSharedSecret curve.toStealthCurve S vout) absorb with
  | error e => rfl
  | ok x => simp [Except.map]

/-- The parties derive the key that the sender pays to. -/
theorem jointKey_iff_payTo {e : F} (he : curve.seckey r = some e) (ha : curve.seckey va.1 = some a)
    (hx : curve.seckey sa.1 = some x) (hb : curve.seckey vb.1 = some b)
    (hy : curve.seckey sb.1 = some y) (hpa : curve.parsePoint pa = some (a • e • curve.G))
    (hpb : curve.parsePoint pb = some (b • e • curve.G)) :
    jointKey curve (identity curve.toStealthCurve va sa) pa pb
        ((keyLibrary curve.toStealthCurve).getPubKey sb.1) vout = .ok (S, P) ↔
      ∃ joint dest, jointAddress curve (identity curve.toStealthCurve va sa).publicAddress
          (identity curve.toStealthCurve vb sb).publicAddress = some joint ∧
        payTo curve.toStealthCurve proofs r ⟨.main, joint, 0⟩ vout = .ok dest ∧
        dest.otp = P ∧ ecdhPoint curve.toStealthCurve r joint.view = some S := by
  have hA := scalarMultG_getPubKey ha
  have hB := scalarMultG_getPubKey hb
  have hX := scalarMultG_getPubKey hx
  have hY := scalarMultG_getPubKey hy
  -- the sender multiplies the sum of the view keys, the parties its point
  have hswap : (a + b) • e • curve.G = e • (a • curve.G + b • curve.G) := by
    rw [smul_comm, add_smul]
  rw [jointKey_eq_ok ha hx hy hpa hpb]
  constructor
  · rintro ⟨hne, hS, h, hh, hP⟩
    rw [hswap] at hS
    have hviewne := right_ne_zero_of_smul (curve.ne_zero_of_parse _ _ hS)
    have hview := curve.parse_serialize _ hviewne
    have hspend := parse_serialize_sum curve hne
    rw [add_smul, add_smul] at hP
    obtain ⟨dest, hdest, hotp⟩ := payTo_joint ⟨_, _⟩ he hview hspend hS hh hP
    refine ⟨_, dest, (jointAddress_spend hA hB hX hY).mpr ⟨hview, hspend⟩, hdest, hotp, ?_⟩
    rw [ecdhPoint_eq, scalarMultPoint_iff he hview, hS]
  · rintro ⟨joint, dest, hjoint, hdest, rfl, hS⟩
    obtain ⟨hview, hspend⟩ := (jointAddress_spend hA hB hX hY).mp hjoint
    rw [ecdhPoint_eq, scalarMultPoint_iff he hview] at hS
    obtain ⟨e', A, B, S', h, he', hA', hB', -, hS', hh, hP, -⟩ := payTo_eq_ok hdest
    obtain rfl := some.inj (he.symm.trans he')
    obtain rfl := some.inj (hview.symm.trans hA')
    obtain rfl := some.inj (hspend.symm.trans hB')
    obtain rfl := eq_of_parse hS hS'
    rw [← add_smul] at hspend
    rw [← add_smul, ← add_smul] at hP
    exact ⟨left_ne_zero_of_smul (curve.ne_zero_of_parse _ _ hspend), hswap ▸ hS, h, hh, hP⟩

theorem jointKey_comm (ha : curve.seckey va.1 = some a) (hx : curve.seckey sa.1 = some x)
    (hb : curve.seckey vb.1 = some b) (hy : curve.seckey sb.1 = some y)
    (hpa : curve.parsePoint pa = some (a • p)) (hpb : curve.parsePoint pb = some (b • p)) :
    jointKey curve (identity curve.toStealthCurve va sa) pa pb
        ((keyLibrary curve.toStealthCurve).getPubKey sb.1) vout = .ok (S, P) ↔
      jointKey curve (identity curve.toStealthCurve vb sb) pb pa
        ((keyLibrary curve.toStealthCurve).getPubKey sa.1) vout = .ok (S, P) := by
  rw [jointKey_eq_ok ha hx hy hpa hpb, jointKey_eq_ok hb hy hx hpb hpa, add_comm x y,
    add_comm a b]

theorem script_and_nonce_of_payTo {dest : ResolvedDest}
    (hdest : payTo curve.toStealthCurve proofs r ⟨.main, joint, 0⟩ vout = .ok dest)
    (hS : ecdhPoint curve.toStealthCurve r joint.view = some S) :
    dest.spk = keyHashScript (scanLibrary curve.toStealthCurve proofs) dest.otp ∧
      dest.nonce = deriveRangeProofNonce curve.toStealthCurve S vout := by
  obtain ⟨e, A, B, S', h, he, hA, hB, -, hS', -, -, hspk, hnonce⟩ := payTo_eq_ok hdest
  rw [ecdhPoint_eq, scalarMultPoint_iff he hA] at hS
  obtain rfl := eq_of_parse hS hS'
  exact ⟨hspk, hnonce⟩

/-- Whoever adds the hash, the shares fit; there are two unless the hash takes the key away. -/
theorem xShares_fit (hx : curve.seckey sa.1 = some x) (hy : curve.seckey sb.1 = some y)
    {shared : Uint256} {t : F} (ht : curve.seckey shared = some t)
    (hP : curve.parsePoint P = some ((t + (x + y)) • curve.G)) (absorb : Bool) :
    ((∃ u v, xShare curve (identity curve.toStealthCurve va sa) shared absorb = .ok u ∧
        xShare curve (identity curve.toStealthCurve vb sb) shared (!absorb) = .ok v) ↔
      curve.seckeyNegate (if absorb then sa.1 else sb.1) ≠ some shared) ∧
    ∀ u v, xShare curve (identity curve.toStealthCurve va sa) shared absorb = .ok u →
      xShare curve (identity curve.toStealthCurve vb sb) shared (!absorb) = .ok v →
      Fit curve u v P := by
  have hexists : ∀ c : F, (∃ u, curve.seckey u = some (c + t)) ↔ ¬ t = -c := by
    intro c
    rw [eq_neg_iff_add_eq_zero, add_comm t c]
    exact ⟨fun ⟨u, hu⟩ => seckey_ne_zero hu, fun hne => ⟨_, seckey_serializeScalar hne⟩⟩
  have hnegate : ∀ {k : Scalar} {c : F}, curve.seckey k = some c →
      (curve.seckeyNegate k ≠ some shared ↔ ¬ t = -c) := by
    intro k c hk
    rw [Ne, seckeyNegate_iff hk, ht, some.injEq]
  cases absorb with
  | true =>
    refine ⟨?_, ?_⟩
    · rw [if_pos rfl, hnegate hx, ← hexists]
      constructor
      · rintro ⟨u, v, hu, -⟩
        exact ⟨u, (xShare_true hx ht).mp hu⟩
      · rintro ⟨u, hu⟩
        exact ⟨u, sb.1, (xShare_true hx ht).mpr hu, rfl⟩
    · intro u v hu hv
      obtain rfl : sb.1 = v := Except.ok.inj hv
      refine fit_of_sum ((xShare_true hx ht).mp hu) hy ?_
      rw [hP, add_comm x t, add_assoc]
  | false =>
    refine ⟨?_, ?_⟩
    · rw [if_neg (by decide), hnegate hy, ← hexists]
      constructor
      · rintro ⟨u, v, -, hv⟩
        exact ⟨v, (xShare_true hy ht).mp hv⟩
      · rintro ⟨v, hv⟩
        exact ⟨sa.1, v, rfl, (xShare_true hy ht).mpr hv⟩
    · intro u v hu hv
      obtain rfl : sa.1 = u := Except.ok.inj hu
      refine fit_of_sum hx ((xShare_true hy ht).mp hv) ?_
      rw [hP, add_comm t, add_assoc]

end Shares

section Protocol

variable {curve : JointCurve F E} {proofs : ProofLibrary} {R pa pb : Point}

/-- The partial points add up to the joint one, the parties derive the sender's key, and the
shares that they load fit together. The party that adds the hash has a share unless the hash is
the negative of its key. -/
theorem shares_fit_together (va sa vb sb r : curve.Seckey) (vout : UInt32)
    (hR : curve.scalarMultG r.1 = some R) (hpa : scanPartial curve va.1 R = some pa)
    (hpb : scanPartial curve vb.1 R = some pb) :
    let alice := identity curve.toStealthCurve va sa
    let bob := identity curve.toStealthCurve vb sb
    let keyA := jointKey curve alice pa pb bob.publicAddress.spend vout
    let keyB := jointKey curve bob pb pa alice.publicAddress.spend vout
    (∀ Q, ((scanPartial curve va.1 Q).bind fun p => (scanPartial curve vb.1 Q).bind fun q =>
        combinePartials curve p q) =
      (curve.seckeyTweakAdd va.1 vb.1).bind fun v => ecdhPoint curve.toStealthCurve v Q) ∧
    (∀ S P, keyA = .ok (S, P) ↔ ∃ joint dest,
      jointAddress curve alice.publicAddress bob.publicAddress = some joint ∧
      payTo curve.toStealthCurve proofs r.1 ⟨.main, joint, 0⟩ vout = .ok dest ∧
      dest.otp = P ∧ ecdhPoint curve.toStealthCurve r.1 joint.view = some S) ∧
    (∀ S P, keyA = .ok (S, P) ↔ keyB = .ok (S, P)) ∧
    ∀ joint dest amount blind out txout tx S P,
      jointAddress curve alice.publicAddress bob.publicAddress = some joint →
      payTo curve.toStealthCurve proofs r.1 ⟨.main, joint, 0⟩ vout = .ok dest →
      buildOutput proofs vout.toNat amount blind dest = .ok (out, txout) →
      Carries tx vout out txout → keyA = .ok (S, P) → ∀ absorb : Bool,
        ((∃ s t,
            loadshare curve proofs alice tx vout pa pb bob.publicAddress.spend absorb = .ok s ∧
            loadshare curve proofs bob tx vout pb pa alice.publicAddress.spend (!absorb) =
              .ok t) ↔
          curve.seckeyNegate (if absorb then sa.1 else sb.1) ≠
            some (deriveSharedSecret curve.toStealthCurve S vout)) ∧
        (curve.seckeyNegate (if absorb then sa.1 else sb.1) =
            some (deriveSharedSecret curve.toStealthCurve S vout) →
          (if absorb then loadshare curve proofs alice tx vout pa pb bob.publicAddress.spend absorb
          else loadshare curve proofs bob tx vout pb pa alice.publicAddress.spend (!absorb)) =
            .error "one-time priv derivation failed") ∧
        ∀ s t, loadshare curve proofs alice tx vout pa pb bob.publicAddress.spend absorb = .ok s →
          loadshare curve proofs bob tx vout pb pa alice.publicAddress.spend (!absorb) = .ok t →
          s.jointPubkey = dest.otp ∧ t.jointPubkey = dest.otp ∧
            Fit curve s.xShare t.xShare dest.otp := by
  intro alice bob keyA keyB
  obtain ⟨a, ha⟩ := seckeyVerify_iff.mp va.2
  obtain ⟨x, hx⟩ := seckeyVerify_iff.mp sa.2
  obtain ⟨b, hb⟩ := seckeyVerify_iff.mp vb.2
  obtain ⟨y, hy⟩ := seckeyVerify_iff.mp sb.2
  obtain ⟨e, he⟩ := seckeyVerify_iff.mp r.2
  rw [scalarMultG_iff he] at hR
  rw [scanPartial_eq, scalarMultPoint_iff ha hR] at hpa
  rw [scanPartial_eq, scalarMultPoint_iff hb hR] at hpb
  have hsender : ∀ S P, keyA = .ok (S, P) ↔ ∃ joint dest,
      jointAddress curve alice.publicAddress bob.publicAddress = some joint ∧
      payTo curve.toStealthCurve proofs r.1 ⟨.main, joint, 0⟩ vout = .ok dest ∧
      dest.otp = P ∧ ecdhPoint curve.toStealthCurve r.1 joint.view = some S := fun S P =>
    jointKey_iff_payTo he ha hx hb hy hpa hpb
  have hcomm : ∀ S P, keyA = .ok (S, P) ↔ keyB = .ok (S, P) := fun S P =>
    jointKey_comm ha hx hb hy hpa hpb
  refine ⟨combine_scanPartials va vb, hsender, hcomm, ?_⟩
  intro joint dest amount blind out txout tx S P hjoint hdest hbuilt htx hkey absorb
  obtain ⟨joint', dest', hjoint', hdest', rfl, hS⟩ := (hsender S P).mp hkey
  obtain rfl := some.inj (hjoint.symm.trans hjoint')
  obtain rfl := Except.ok.inj (hdest.symm.trans hdest')
  obtain ⟨-, -, t, ht, hP⟩ := (jointKey_eq_ok ha hx hy hpa hpb).mp hkey
  obtain ⟨hspk, hnonce⟩ := script_and_nonce_of_payTo hdest hS
  have hA := validKey_of_parse (scalarMultG_getPubKey hx)
  have hB := validKey_of_parse (scalarMultG_getPubKey hy)
  have hloadA : loadshare curve proofs alice tx vout pa pb bob.publicAddress.spend absorb = _ :=
    loadshare_of_carries hB hkey hspk hnonce hbuilt htx absorb
  have hloadB :
      loadshare curve proofs bob tx vout pb pa alice.publicAddress.spend (!absorb) = _ :=
    loadshare_of_carries hA ((hcomm S _).mp hkey) hspk hnonce hbuilt htx (!absorb)
  obtain ⟨hexist, hfit⟩ := xShares_fit hx hy ht hP absorb
  rw [hloadA, hloadB]
  simp only [Checks.map_eq_ok]
  refine ⟨?_, fun hnegate => ?_, ?_⟩
  · rw [← hexist]
    constructor
    · rintro ⟨_, _, ⟨u, hu, -⟩, v, hv, -⟩
      exact ⟨u, v, hu, hv⟩
    · rintro ⟨u, v, hu, hv⟩
      exact ⟨_, _, ⟨u, hu, rfl⟩, v, hv, rfl⟩
  · cases absorb with
    | true => rw [if_pos rfl, xShare_eq_error hx hnegate]; rfl
    | false => rw [if_neg (by decide), Bool.not_false, xShare_eq_error hy hnegate]; rfl
  · rintro _ _ ⟨u, hu, rfl⟩ ⟨v, hv, rfl⟩
    exact ⟨rfl, rfl, hfit u v hu hv⟩

end Protocol

section Sample

theorem parse_serialize_sample (p : ZMod 7) (hp : p ≠ 0) :
    sampleCurve.parsePoint (sampleCurve.serializePoint p) = some p :=
  sampleCurve.parse_serialize p hp

def sampleSecp : Secp (ZMod 7) (ZMod 7) where
  toCurve := toyCurve
  parse b := if h : b.length = 33 then sampleCurve.parsePoint ⟨b, h⟩ else none
  serialize := sampleCurve.serializePoint
  parse_serialize := parse_serialize_sample
  validSize_serialize _ := rfl
  parseDer := toySecp.parseDer
  isHigh := toySecp.isHigh
  toScalar := toySecp.toScalar
  sha256 := toySecp.sha256
  sign := toySecp.sign
  sign_verifies := toySecp.sign_verifies

theorem parse_secp_sample (b : Point) :
    sampleSecp.parse b.toList = samplePayments.parsePoint b :=
  dif_pos b.2

theorem serialize_secp_sample (p : ZMod 7) :
    sampleSecp.serialize p = samplePayments.serializePoint p :=
  rfl

theorem two_ne_zero_sample : (2 : ZMod 7) ≠ 0 := by
  decide

def sampleJoint : JointCurve (ZMod 7) (ZMod 7) where
  toStealthCurve := samplePayments
  secp := sampleSecp
  parse_secp := parse_secp_sample
  serialize_secp := serialize_secp_sample
  two_ne_zero := two_ne_zero_sample

def jointSeckey (k : Fin 6) : sampleJoint.Seckey :=
  ⟨sampleScalar (k.val + 1), by revert k; decide +kernel⟩

/-- The parties have the view keys 3 and 1, and the second has the spend key 1. -/
def sampleAlice (k : Fin 6) : Identity Point :=
  identity sampleJoint.toStealthCurve (jointSeckey 2) (jointSeckey k)

def sampleBob : Identity Point :=
  identity sampleJoint.toStealthCurve (jointSeckey 0) (jointSeckey 0)

def sampleJointTx (dest : ResolvedDest) : Transaction :=
  sampleTx (sampleBuilt dest).1 (sampleBuilt dest).2

/-- The hash 2 takes the spend key 5 away: the output is there and both derive its key, and the
party that should add the hash has no share. -/
theorem no_share_of_negative : ∃ joint,
    jointAddress sampleJoint (sampleAlice 4).publicAddress sampleBob.publicAddress = some joint ∧
    payTo sampleJoint.toStealthCurve sampleProofs (jointSeckey 1).1 ⟨.main, joint, 0⟩ 0 =
      .ok (sampleDest 2 1 1) ∧
    scanPartial sampleJoint (jointSeckey 2).1 (samplePoint 2) = some (samplePoint 6) ∧
    scanPartial sampleJoint (jointSeckey 0).1 (samplePoint 2) = some (samplePoint 2) ∧
    jointKey sampleJoint (sampleAlice 4) (samplePoint 6) (samplePoint 2)
      sampleBob.publicAddress.spend 0 = .ok (samplePoint 1, samplePoint 1) ∧
    loadshare sampleJoint sampleProofs (sampleAlice 4) (sampleJointTx (sampleDest 2 1 1)) 0
      (samplePoint 6) (samplePoint 2) sampleBob.publicAddress.spend true =
        .error "one-time priv derivation failed" := by
  refine ⟨⟨samplePoint 4, samplePoint 6⟩, ?_⟩
  decide +kernel

theorem shares_fit_together_sample : ∃ s t,
    loadshare sampleJoint sampleProofs (sampleAlice 0) (sampleJointTx (sampleDest 2 1 4)) 0
      (samplePoint 6) (samplePoint 2) sampleBob.publicAddress.spend true = .ok s ∧
    loadshare sampleJoint sampleProofs sampleBob (sampleJointTx (sampleDest 2 1 4)) 0
      (samplePoint 2) (samplePoint 6) (sampleAlice 0).publicAddress.spend false = .ok t ∧
    s.jointPubkey = samplePoint 4 ∧ t.jointPubkey = samplePoint 4 ∧
    Fit sampleJoint s.xShare t.xShare (samplePoint 4) := by
  obtain ⟨-, -, -, hload⟩ := @shares_fit_together (ZMod 7) (ZMod 7) _ _ _ _ _ sampleJoint
    sampleProofs (samplePoint 2) (samplePoint 6) (samplePoint 2) (jointSeckey 2) (jointSeckey 0)
    (jointSeckey 0) (jointSeckey 0) (jointSeckey 1) 0 (by decide +kernel) (by decide +kernel)
    (by decide +kernel)
  obtain ⟨hexist, -, hfit⟩ := hload ⟨samplePoint 4, samplePoint 2⟩ (sampleDest 2 1 4) 700
    (sampleScalar 5) _ _ (sampleJointTx (sampleDest 2 1 4)) (samplePoint 1) (samplePoint 4)
    (by decide +kernel) (by decide +kernel) (buildOutput_sample _) (carries_sampleTx _ _)
    (by decide +kernel) true
  obtain ⟨s, t, hs, ht⟩ := hexist.mpr (by decide +kernel)
  exact ⟨s, t, hs, ht, hfit s t hs ht⟩

end Sample

end Pricoin.JointShares
