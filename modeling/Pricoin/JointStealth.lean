import Mathlib.Algebra.Field.ZMod
import Mathlib.Data.ZMod.Basic
import Pricoin.Ecdsa
import Pricoin.KeyImageFile

/-!
Joint stealth addresses. Two parties add their keys, after each has signed for its
spend key with the session and the other's spend key as the message. The message does
not have the signer's own key in it, so a party may choose the signature first and
the key after.
-/
namespace Pricoin.JointStealth

open ByteStreams KeyImageFile Ecdsa Option

variable {F E : Type} [Field F] [AddCommGroup E] [Module F E] [DecidableEq F] [DecidableEq E]
  {sessionId : Uint256}

section PubKeys

def getLen (chHeader : UInt8) : ℕ :=
  if chHeader = 2 ∨ chHeader = 3 then 33
  else if chHeader = 4 ∨ chHeader = 6 ∨ chHeader = 7 then 65
  else 0

def validSize (vch : List UInt8) : Bool :=
  match vch with
  | [] => false
  | chHeader :: _ => getLen chHeader = vch.length

/-- The bytes of a key in one of the lengths that the first byte allows, or none. -/
structure CPubKey where
  vch : List UInt8
  wellFormed : vch = [] ∨ validSize vch = true

namespace CPubKey

def ofBytes (vch : List UInt8) : CPubKey :=
  if h : validSize vch = true then ⟨vch, .inr h⟩ else ⟨[], .inl rfl⟩

def isValid (key : CPubKey) : Bool := 0 < key.vch.length

def isCompressed (key : CPubKey) : Bool := key.vch.length = 33

end CPubKey

structure StealthAddress where
  view : CPubKey
  spend : CPubKey

def StealthAddress.isValid (address : StealthAddress) : Bool :=
  address.view.isValid && address.view.isCompressed &&
    address.spend.isValid && address.spend.isCompressed

/-- The curve library and the hash, as far as the functions below use them. -/
structure Secp (F E : Type) [Field F] [AddCommGroup E] [Module F E] [DecidableEq F]
    [DecidableEq E] extends Curve F E where
  parse : List UInt8 → Option E
  serialize : E → Bytes 33
  parse_serialize : ∀ p, p ≠ 0 → parse (serialize p).toList = some p
  validSize_serialize : ∀ p, validSize (serialize p).toList = true
  /-- The lax reading of a DER signature. -/
  parseDer : List UInt8 → Option (Signature F)
  isHigh : F → Bool
  toScalar : Uint256 → F
  sha256 : List UInt8 → Uint256
  /-- Signing with a nonce that is derived from the key and the message. -/
  sign : F → Uint256 → Option (List UInt8)
  sign_verifies : ∀ priv hash bytes, sign priv hash = some bytes →
    bytes ≠ [] ∧ ∃ sig, parseDer bytes = some sig ∧
      toCurve.Verifies (toScalar hash) sig (priv • G)

end PubKeys

section Protocol

variable (secp : Secp F E)

def normalize (sig : Signature F) : Signature F :=
  if secp.isHigh sig.s then Curve.negateS sig else sig

def CPubKey.verify (key : CPubKey) (hash : Uint256) (vchSig : List UInt8) : Bool :=
  if !key.isValid then false
  else match secp.parse key.vch with
    | none => false
    | some pubkey =>
      match secp.parseDer vchSig with
      | none => false
      | some sig => secp.Verifies (secp.toScalar hash) (normalize secp sig) pubkey

def addPubkeys (a33 b33 : List UInt8) : Option (Bytes 33) :=
  if a33.length ≠ 33 ∨ b33.length ≠ 33 then none
  else do
    let pa ← secp.parse a33
    let pb ← secp.parse b33
    if pa + pb = 0 then none else some (secp.serialize (pa + pb))

def combine (a b : StealthAddress) : Option StealthAddress :=
  if !a.isValid || !b.isValid then none
  else do
    let viewSum ← addPubkeys secp a.view.vch b.view.vch
    let spendSum ← addPubkeys secp a.spend.vch b.spend.vch
    let joint : StealthAddress := ⟨.ofBytes viewSum.toList, .ofBytes spendSum.toList⟩
    if !joint.isValid then none else some joint

def popTag : List UInt8 := ascii "pricoin/joint-stealth/PoP-v1"

def popChallenge (sessionId : Uint256) (counterpartySpendPubkey : CPubKey) : Uint256 :=
  secp.sha256 (popTag ++ sessionId.toList ++ counterpartySpendPubkey.vch)

def provePossession (selfSpendPriv : F) (sessionId : Uint256)
    (counterpartySpendPubkey : CPubKey) : Option (List UInt8) :=
  if selfSpendPriv = 0 then none
  else if !counterpartySpendPubkey.isValid || !counterpartySpendPubkey.isCompressed then none
  else secp.sign selfSpendPriv (popChallenge secp sessionId counterpartySpendPubkey)

def verifyPossession (selfSpendPubkey : CPubKey) (sessionId : Uint256)
    (counterpartySpendPubkey : CPubKey) (sig : List UInt8) : Bool :=
  if !selfSpendPubkey.isValid || !selfSpendPubkey.isCompressed then false
  else if !counterpartySpendPubkey.isValid || !counterpartySpendPubkey.isCompressed then false
  else if sig.isEmpty then false
  else selfSpendPubkey.verify secp (popChallenge secp sessionId counterpartySpendPubkey) sig

def combineWithPoP (a b : StealthAddress) (aPop bPop : List UInt8) (sessionId : Uint256) :
    Option StealthAddress :=
  if !verifyPossession secp a.spend sessionId b.spend aPop then none
  else if !verifyPossession secp b.spend sessionId a.spend bPop then none
  else combine secp a b

end Protocol

section Acceptance

variable {secp : Secp F E}

theorem verifies_normalize {e : F} {sig : Signature F} {key : E} :
    secp.Verifies e (normalize secp sig) key ↔ secp.Verifies e sig key := by
  unfold normalize
  split
  · exact Curve.verifies_negateS
  · rfl

theorem verify_iff {key : CPubKey} {hash : Uint256} {vchSig : List UInt8} {pubkey : E}
    (hkey : secp.parse key.vch = some pubkey) :
    key.verify secp hash vchSig = true ↔ key.isValid = true ∧
      ∃ sig, secp.parseDer vchSig = some sig ∧ secp.Verifies (secp.toScalar hash) sig pubkey := by
  unfold CPubKey.verify
  rw [hkey]
  cases hvalid : key.isValid with
  | false => simp
  | true =>
    cases hsig : secp.parseDer vchSig with
    | none => simp
    | some sig => simp [verifies_normalize]

theorem verifyPossession_iff {self counterparty : CPubKey} {sig : List UInt8} :
    verifyPossession secp self sessionId counterparty sig = true ↔
      (self.isValid = true ∧ self.isCompressed = true) ∧
      (counterparty.isValid = true ∧ counterparty.isCompressed = true) ∧ sig ≠ [] ∧
      self.verify secp (popChallenge secp sessionId counterparty) sig = true := by
  unfold verifyPossession
  simp only [Bool.or_eq_true, Bool.not_eq_true']
  split_ifs with hself hother hsig
  · grind
  · grind
  · grind
  · grind

theorem combineWithPoP_eq_some {a b joint : StealthAddress} {aPop bPop : List UInt8} :
    combineWithPoP secp a b aPop bPop sessionId = some joint ↔
      verifyPossession secp a.spend sessionId b.spend aPop = true ∧
      verifyPossession secp b.spend sessionId a.spend bPop = true ∧
      combine secp a b = some joint := by
  unfold combineWithPoP
  simp only [Bool.not_eq_true']
  split_ifs <;> simp_all

theorem addPubkeys_of_parse {a33 b33 : List UInt8} {pa pb : E} (ha : a33.length = 33)
    (hb : b33.length = 33) (hpa : secp.parse a33 = some pa) (hpb : secp.parse b33 = some pb)
    (hsum : pa + pb ≠ 0) : addPubkeys secp a33 b33 = some (secp.serialize (pa + pb)) := by
  simp [addPubkeys, ha, hb, hpa, hpb, hsum]

theorem vch_ofBytes_serialize (p : E) :
    (CPubKey.ofBytes (secp.serialize p).toList).vch = (secp.serialize p).toList := by
  rw [CPubKey.ofBytes, dif_pos (secp.validSize_serialize p)]

theorem isValid_ofBytes_serialize (p : E) :
    (CPubKey.ofBytes (secp.serialize p).toList).isValid = true ∧
      (CPubKey.ofBytes (secp.serialize p).toList).isCompressed = true := by
  rw [CPubKey.isValid, CPubKey.isCompressed, vch_ofBytes_serialize]
  simp

theorem isValid_spend {address : StealthAddress} (h : address.isValid = true) :
    address.spend.isValid = true ∧ address.spend.isCompressed = true := by
  simp only [StealthAddress.isValid, Bool.and_eq_true] at h
  exact ⟨h.1.2, h.2⟩

/-- The spend key of a joint address is the sum of the two. -/
theorem combine_of_parse {a b : StealthAddress} (ha : a.isValid = true) (hb : b.isValid = true)
    {va vb pa pb : E} (hva : secp.parse a.view.vch = some va)
    (hvb : secp.parse b.view.vch = some vb) (hpa : secp.parse a.spend.vch = some pa)
    (hpb : secp.parse b.spend.vch = some pb) (hview : va + vb ≠ 0) (hspend : pa + pb ≠ 0) :
    ∃ joint, combine secp a b = some joint ∧ secp.parse joint.spend.vch = some (pa + pb) := by
  have hlen : ∀ x : StealthAddress, x.isValid = true →
      x.view.vch.length = 33 ∧ x.spend.vch.length = 33 := by
    intro x hx
    simp only [StealthAddress.isValid, CPubKey.isCompressed, Bool.and_eq_true,
      decide_eq_true_eq] at hx
    exact ⟨hx.1.1.2, hx.2⟩
  refine ⟨⟨.ofBytes (secp.serialize (va + vb)).toList, .ofBytes (secp.serialize (pa + pb)).toList⟩,
    ?_, ?_⟩
  · have hviewSum := addPubkeys_of_parse (hlen a ha).1 (hlen b hb).1 hva hvb hview
    have hspendSum := addPubkeys_of_parse (hlen a ha).2 (hlen b hb).2 hpa hpb hspend
    have hjoint : (StealthAddress.mk (.ofBytes (secp.serialize (va + vb)).toList)
        (.ofBytes (secp.serialize (pa + pb)).toList)).isValid = true := by
      simp [StealthAddress.isValid, isValid_ofBytes_serialize]
    simp [combine, ha, hb, hviewSum, hspendSum, hjoint]
  · change secp.parse (CPubKey.ofBytes (secp.serialize (pa + pb)).toList).vch = _
    rw [vch_ofBytes_serialize, secp.parse_serialize _ hspend]

/-- An honest party's proof is accepted. -/
theorem verifyPossession_provePossession {priv : F} {self counterparty : CPubKey} {sig : List UInt8}
    (hself : self.isValid = true ∧ self.isCompressed = true)
    (hkey : secp.parse self.vch = some (priv • secp.G))
    (h : provePossession secp priv sessionId counterparty = some sig) :
    verifyPossession secp self sessionId counterparty sig = true := by
  unfold provePossession at h
  simp only [Bool.or_eq_true, Bool.not_eq_true'] at h
  split_ifs at h with hzero hother
  obtain ⟨hne, hsig⟩ := secp.sign_verifies _ _ _ h
  refine verifyPossession_iff.mpr ⟨hself, by grind, hne, ?_⟩
  exact (verify_iff hkey).mpr ⟨hself.1, hsig⟩

end Acceptance

section RogueKeys

variable (secp : Secp F E)

/-- The second address and its proof were made from the spend key of the first, which is known
as a point only. -/
structure Attack (a b : StealthAddress) (bPop : List UInt8) (sessionId : Uint256) (A : E)
    (f : Forgery F) : Prop where
  honest : secp.parse a.spend.vch = some A
  key : secp.parse b.spend.vch = some (f.key.eval secp.toCurve A)
  sig : secp.parseDer bPop = some f.sig
  nonce : f.sig.r = secp.xCoord (f.nonce.eval secp.toCurve A)
  identity : f.IsIdentity (secp.toScalar (popChallenge secp sessionId a.spend))

variable {secp} {a b joint : StealthAddress} {aPop bPop : List UInt8} {sessionId : Uint256} {A : E}

/-- An accepted key is known to its owner exactly when the nonce was made without the other
party's key. -/
theorem ofPoint_eq_zero_iff_of_accepted {f : Forgery F}
    (hattack : Attack secp a b bPop sessionId A f)
    (haccepted : combineWithPoP secp a b aPop bPop sessionId = some joint) :
    f.key.ofPoint = 0 ↔ f.nonce.ofPoint = 0 := by
  obtain ⟨-, hpossession, -⟩ := combineWithPoP_eq_some.mp haccepted
  obtain ⟨-, -, -, hverify⟩ := verifyPossession_iff.mp hpossession
  obtain ⟨-, sig, hsig, hr, hs, -⟩ := (verify_iff hattack.key).mp hverify
  obtain rfl := some.inj (hsig.symm.trans hattack.sig)
  exact hattack.identity.ofPoint_eq_zero_iff hr hs

/-- Every solution of the signature equation is accepted, beside an honest party's proof. -/
theorem exists_joint_of_attack {f : Forgery F} {priv : F} {va vb : E} (ha : a.isValid = true)
    (hb : b.isValid = true) (hva : secp.parse a.view.vch = some va)
    (hvb : secp.parse b.view.vch = some vb) (hview : va + vb ≠ 0)
    (haPop : provePossession secp priv sessionId b.spend = some aPop) (hbPop : bPop ≠ [])
    (hattack : Attack secp a b bPop sessionId (priv • secp.G) f) (hr : f.sig.r ≠ 0)
    (hs : f.sig.s ≠ 0) (hnonce : f.nonce.eval secp.toCurve (priv • secp.G) ≠ 0)
    (hspend : priv • secp.G + f.key.eval secp.toCurve (priv • secp.G) ≠ 0) :
    ∃ joint, combineWithPoP secp a b aPop bPop sessionId = some joint ∧
      secp.parse joint.spend.vch =
        some (priv • secp.G + f.key.eval secp.toCurve (priv • secp.G)) := by
  obtain ⟨joint, hjoint, hsum⟩ :=
    combine_of_parse ha hb hva hvb hattack.honest hattack.key hview hspend
  have haSpend := isValid_spend ha
  have hbSpend := isValid_spend hb
  have hverifies : secp.Verifies (secp.toScalar (popChallenge secp sessionId a.spend)) f.sig
      (f.key.eval secp.toCurve (priv • secp.G)) := by
    refine ⟨hr, hs, ?_, ?_⟩
    · rw [hattack.identity.noncePoint_eq]
      exact hnonce
    · rw [hattack.identity.noncePoint_eq]
      exact hattack.nonce.symm
  refine ⟨joint, combineWithPoP_eq_some.mpr ⟨?_, ?_, hjoint⟩, hsum⟩
  · exact verifyPossession_provePossession haSpend hattack.honest haPop
  · refine verifyPossession_iff.mpr ⟨hbSpend, haSpend, hbPop, ?_⟩
    exact (verify_iff hattack.key).mpr ⟨hbSpend.1, f.sig, hattack.sig, hverifies⟩

end RogueKeys

section Sample

/-- A group of seven elements in place of the curve. -/
abbrev Toy := ZMod 7

def toyCurve : Curve Toy Toy where
  G := 1
  xCoord p := p ^ 2
  xCoord_neg p := neg_sq p

def toyByte (p : Toy) : UInt8 := UInt8.ofNat p.val

theorem toNat_toyByte (p : Toy) : ((toyByte p).toNat : Toy) = p := by
  revert p
  decide

def toyDer (sig : Signature Toy) : List UInt8 := [toyByte sig.r, toyByte sig.s]

def toySignatures : List (Signature Toy) :=
  (List.range 7).flatMap fun r => (List.range 7).map fun s => ⟨r, s⟩

def toySecp : Secp Toy Toy where
  toCurve := toyCurve
  parse
    | 2 :: b :: _ => some b.toNat
    | _ => none
  serialize p := ⟨2 :: toyByte p :: List.replicate 31 0, rfl⟩
  parse_serialize p _ := congrArg some (toNat_toyByte p)
  validSize_serialize p := rfl
  parseDer
    | [r, s] => some ⟨r.toNat, s.toNat⟩
    | _ => none
  isHigh s := 3 < s.val
  toScalar hash := hash.head.toNat
  sha256 _ := .replicate 32 1
  sign priv hash := (toySignatures.find? fun sig =>
    toyCurve.Verifies (hash.head.toNat : Toy) sig (priv • toyCurve.G)).map toyDer
  sign_verifies priv hash bytes h := by
    obtain ⟨sig, hfound, rfl⟩ := map_eq_some_iff.mp h
    have hverifies := List.find?_some hfound
    refine ⟨List.cons_ne_nil _ _, sig, ?_, of_decide_eq_true hverifies⟩
    simp [toyDer, toNat_toyByte]

def toyKey (p : Toy) : CPubKey := .ofBytes (toySecp.serialize p).toList

def toyNonce : Combination Toy := ⟨1, 1⟩

/-- A key that takes the key 3 away, for the challenge 1. -/
def toyForgery : Forgery Toy := .solve 1 toyNonce 2 (-1)

def toyHonest : StealthAddress := ⟨toyKey 1, toyKey 3⟩

def toyRogue : StealthAddress := ⟨toyKey 1, toyKey (toyForgery.key.eval toyCurve 3)⟩

theorem toy_attack (sessionId : Uint256) :
    Attack toySecp toyHonest toyRogue (toyDer toyForgery.sig) sessionId 3 toyForgery where
  honest := by decide +kernel
  key := by decide +kernel
  sig := by
    change some _ = some _
    rw [toNat_toyByte, toNat_toyByte]
  nonce := by decide +kernel
  identity := Forgery.isIdentity_solve (by decide) (by decide) (by decide)

theorem exists_joint_toyRogue : ∃ aPop joint,
    provePossession toySecp 3 nullHash toyRogue.spend = some aPop ∧
    combineWithPoP toySecp toyHonest toyRogue aPop (toyDer toyForgery.sig) nullHash = some joint ∧
    toySecp.parse joint.spend.vch = some (toyForgery.key.ofG • toySecp.G) := by
  have hpop : ∃ aPop, provePossession toySecp 3 nullHash toyRogue.spend = some aPop :=
    isSome_iff_exists.mp (by decide +kernel)
  obtain ⟨aPop, haPop⟩ := hpop
  have hva : toySecp.parse toyHonest.view.vch = some 1 := by decide +kernel
  have hvb : toySecp.parse toyRogue.view.vch = some 1 := by decide +kernel
  obtain ⟨joint, hjoint, hspend⟩ := exists_joint_of_attack
    (by decide +kernel) (by decide +kernel) hva hvb (by decide)
    haPop (List.cons_ne_nil _ _) (toy_attack nullHash) (by decide +kernel) (by decide +kernel)
    (by decide +kernel) (by decide +kernel)
  refine ⟨aPop, joint, haPop, hjoint, hspend.trans ?_⟩
  decide +kernel

/-- The joint key is the forger's alone, although both proofs were accepted. -/
theorem rogueKey_accepted : ∃ aPop joint,
    provePossession toySecp 3 nullHash toyRogue.spend = some aPop ∧
    Attack toySecp toyHonest toyRogue (toyDer toyForgery.sig) nullHash 3 toyForgery ∧
    combineWithPoP toySecp toyHonest toyRogue aPop (toyDer toyForgery.sig) nullHash = some joint ∧
    toyForgery.key.ofPoint = -1 ∧
    toySecp.parse joint.spend.vch = some (toyForgery.key.ofG • toySecp.G) := by
  obtain ⟨aPop, joint, haPop, hjoint, hspend⟩ := exists_joint_toyRogue
  exact ⟨aPop, joint, haPop, toy_attack nullHash, hjoint, rfl, hspend⟩

theorem ofPoint_eq_zero_iff_toyRogue :
    toyForgery.key.ofPoint = 0 ↔ toyForgery.nonce.ofPoint = 0 := by
  obtain ⟨aPop, joint, -, hjoint, -⟩ := exists_joint_toyRogue
  exact ofPoint_eq_zero_iff_of_accepted (toy_attack nullHash) hjoint

end Sample

end Pricoin.JointStealth
