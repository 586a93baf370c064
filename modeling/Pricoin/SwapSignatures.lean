import Pricoin.RecordCodecs
import Pricoin.SignatureHashes

/-!
What the swap identity key signs. Offers and the spends of scripts are signed over double
hashes, and a session signs the single hash of any payload. The inner hash of an offer or
a spend is such a payload, and it is the only one whose signature is good for the other.
-/
namespace Pricoin.SwapSignatures

open ByteStreams KeyImageFile Codecs Transactions SymbolicHashes SignatureHashes
open RecordCodecs (sint64)

/-- Signing and verification under a hash, idealised: a signature is good for the message that it
was made for, and for no other. The equation of `Ecdsa` alone does not give that: it takes hashes
that are equal as scalars for one message. -/
structure Signatures (κ δ σ : Type) where
  pub : κ → Bytes 33
  sign : κ → δ → σ
  Verify : Bytes 33 → δ → σ → Prop
  verify_sign : ∀ k m m', Verify (pub k) m' (sign k m) ↔ m' = m

section Offers

/-- The side and the chain are the bytes they are written as, and a key that is missing or not
compressed is none. -/
structure OfferPayload (σ : Type) where
  version : UInt8
  orderId : Uint256
  side : UInt8
  foreignChain : UInt8
  maxPricAmountSat : Int64
  foreignAmountAtMaxSat : Int64
  expiryUnixSec : Int64
  makerPubkey : Option (Bytes 33)
  signature : Option σ

variable {κ δ σ : Type} (H : Hasher δ) (lib : Signatures κ δ σ)

def offerTag : List UInt8 := ascii "pricoin/offer-v1"

/-- The payload with an empty signature. -/
def serializeUnsigned (p : OfferPayload σ) : List UInt8 :=
  [p.version] ++ p.orderId.toList ++ [p.side, p.foreignChain] ++
    sint64.write p.maxPricAmountSat ++ sint64.write p.foreignAmountAtMaxSat ++
    sint64.write p.expiryUnixSec ++
    (p.makerPubkey.getD (.replicate 33 0)).toList ++ writeCompactSize 0

def offerContent (p : OfferPayload σ) : Message δ := bytes (offerTag ++ serializeUnsigned p)

def signingHash (p : OfferPayload σ) : δ := H.getHash (offerContent p)

def VerifySignedPayload (p : OfferPayload σ) : Prop :=
  match p.makerPubkey, p.signature with
  | some pub, some sig => lib.Verify pub (signingHash H p) sig
  | _, _ => False

end Offers

section Scripts

structure HTLCFunding where
  prevTxid : Uint256
  prevVout : UInt32
  prevValue : ℤ
  redeemScript : Script

def buildHTLCSpendTxBase (funding : HTLCFunding) (destScript : Script) (fee : ℤ)
    (nSequence nLockTime : UInt32) : Option Transaction :=
  if funding.prevValue ≤ 0 then none
  else if fee < 0 ∨ funding.prevValue ≤ fee then none
  else if destScript = [] then none
  else some
    { version := 2
      vin := [⟨⟨funding.prevTxid, funding.prevVout⟩, [], nSequence, []⟩]
      vout := [⟨funding.prevValue - fee, destScript⟩]
      nLockTime := nLockTime
      ctBundle := ⟨[], [], [], 0⟩ }

/-- The transactions that spend a script: a claim, with a preimage or a secret scalar, and a
refund. -/
inductive HTLCSpend where
  | claim
  | refund (timeout : ℤ)

def HTLCSpend.build (funding : HTLCFunding) (destScript : Script) (fee : ℤ) :
    HTLCSpend → Option Transaction
  | .claim => buildHTLCSpendTxBase funding destScript fee 0xfffffffd 0
  | .refund timeout =>
    if timeout < 0 ∨ 0xffffffff < timeout then none
    else buildHTLCSpendTxBase funding destScript fee 0xfffffffd (.ofNat timeout.toNat)

variable {δ : Type} (H : Hasher δ)

/-- The hash that the witness of the spend signs. -/
def spendSighash (funding : HTLCFunding) (tx : Transaction) : δ :=
  (signatureHash H funding.redeemScript tx 0 sighashAll funding.prevValue .witnessV0 none none).1

def spendContent (funding : HTLCFunding) (tx : Transaction) : Message δ :=
  signatureContent H funding.redeemScript tx 0 sighashAll funding.prevValue .witnessV0 none ++
    bytes (writeUint32 sighashAll.toUInt32)

theorem spendSighash_eq (funding : HTLCFunding) (tx : Transaction) :
    spendSighash H funding tx = H.getHash (spendContent H funding tx) := by
  unfold spendSighash signatureHash
  rw [if_neg (by simp)]
  simp only [Option.bind_none, ite_self]
  rfl

end Scripts

section Sessions

variable {κ δ σ : Type} (H : Hasher δ) (lib : Signatures κ δ σ)

/-- The single hash of a payload. Digests can stand in it, since anyone can compute their bytes. -/
def payloadHash (payload : Message δ) : δ := H.sha256 payload

def signPayloadEcdsa (k : κ) (payload : Message δ) : σ := lib.sign k (payloadHash H payload)

/-- What is signed for a session is good neither for an offer nor for the spend of a script. -/
structure Separated (k : κ) (payload : Message δ) : Prop where
  offerHash : ∀ p : OfferPayload σ, payloadHash H payload ≠ signingHash H p
  spendHash : ∀ funding destScript fee tx, ∀ spend : HTLCSpend,
    spend.build funding destScript fee = some tx →
      payloadHash H payload ≠ spendSighash H funding tx
  offer : ∀ p : OfferPayload σ, p.makerPubkey = some (lib.pub k) →
    p.signature = some (signPayloadEcdsa H lib k payload) → ¬ VerifySignedPayload H lib p
  spend : ∀ funding destScript fee tx, ∀ spend : HTLCSpend,
    spend.build funding destScript fee = some tx →
      ¬ lib.Verify (lib.pub k) (spendSighash H funding tx) (signPayloadEcdsa H lib k payload)

/-- The payload is not the inner hash of an offer or of the spend of a script. -/
structure NotInner (σ : Type) (payload : Message δ) : Prop where
  offer : ∀ p : OfferPayload σ, payload ≠ [.digest (H.sha256 (offerContent p))]
  spend : ∀ funding destScript fee tx, ∀ spend : HTLCSpend,
    spend.build funding destScript fee = some tx →
      payload ≠ [.digest (H.sha256 (spendContent H funding tx))]

variable {H lib}
variable {payload : Message δ}

/-- A single hash is a double hash just when the one content is the inner hash of the other. -/
theorem payloadHash_eq_iff {content : Message δ} :
    payloadHash H payload = H.getHash content ↔ payload = [.digest (H.sha256 content)] :=
  ⟨fun h => H.injective h, fun h => congrArg H.sha256 h⟩

theorem NotInner.offerHash_ne (h : NotInner H σ payload) (p : OfferPayload σ) :
    payloadHash H payload ≠ signingHash H p :=
  fun heq => h.offer p (payloadHash_eq_iff.mp heq)

theorem NotInner.spendHash_ne (h : NotInner H σ payload) {funding : HTLCFunding}
    {destScript : Script} {fee : ℤ} {tx : Transaction} {spend : HTLCSpend}
    (htx : spend.build funding destScript fee = some tx) :
    payloadHash H payload ≠ spendSighash H funding tx := by
  rw [spendSighash_eq]
  exact fun heq => h.spend _ _ _ _ _ htx (payloadHash_eq_iff.mp heq)

/-- A session signature is good for nothing else just when the payload is no inner hash. -/
theorem separated_iff_notInner (H : Hasher δ) (lib : Signatures κ δ σ) (k : κ)
    (payload : Message δ) : Separated H lib k payload ↔ NotInner H σ payload := by
  constructor
  · intro h
    refine ⟨fun p heq => ?_, fun funding destScript fee tx spend htx heq => ?_⟩
    · exact h.offerHash p (payloadHash_eq_iff.mpr heq)
    · refine h.spendHash funding destScript fee tx spend htx ?_
      rw [spendSighash_eq]
      exact payloadHash_eq_iff.mpr heq
  · intro h
    refine ⟨h.offerHash_ne, fun _ _ _ _ _ htx => h.spendHash_ne htx, ?_, ?_⟩
    · intro p hpub hsig hverify
      unfold VerifySignedPayload at hverify
      rw [hpub, hsig] at hverify
      exact h.offerHash_ne p ((lib.verify_sign k _ _).mp hverify).symm
    · intro funding destScript fee tx spend htx hverify
      exact h.spendHash_ne htx ((lib.verify_sign k _ _).mp hverify).symm

end Sessions

section Sample

/-- Signatures that are the messages they were made for. -/
def sampleSignatures : Signatures Unit Digest Digest where
  pub _ := .replicate 33 2
  sign _ m := m
  Verify _ m sig := m = sig
  verify_sign _ _ _ := Iff.rfl

def sampleOffer : OfferPayload Digest :=
  ⟨1, .replicate 32 1, 0, 0, 10, 20, 30, some (.replicate 33 2), none⟩

/-- The payload that a caller would have the session sign. -/
def offerPayload : Message Digest := [.digest (termHasher.sha256 (offerContent sampleOffer))]

def sampleFunding : HTLCFunding := ⟨.replicate 32 3, 0, 1000, [0x51]⟩

def sampleSpend : Transaction where
  version := 2
  vin := [⟨⟨.replicate 32 3, 0⟩, [], 0xfffffffd, []⟩]
  vout := [⟨900, [0x51]⟩]
  nLockTime := 7
  ctBundle := ⟨[], [], [], 0⟩

def spendPayload : Message Digest :=
  [.digest (termHasher.sha256 (spendContent termHasher sampleFunding sampleSpend))]

/-- A session signature over the inner hash of an offer makes the offer one of the wallet's, and
one over the inner hash of a refund spends the script. -/
theorem session_signs_offer :
    payloadHash termHasher offerPayload = signingHash termHasher sampleOffer ∧
    VerifySignedPayload termHasher sampleSignatures
      { sampleOffer with
        signature := some (signPayloadEcdsa termHasher sampleSignatures () offerPayload) } ∧
    HTLCSpend.build sampleFunding [0x51] 100 (.refund 7) = some sampleSpend ∧
    sampleSignatures.Verify (sampleSignatures.pub ()) (spendSighash termHasher sampleFunding
      sampleSpend) (signPayloadEcdsa termHasher sampleSignatures () spendPayload) := by
  refine ⟨rfl, rfl, rfl, ?_⟩
  rw [spendSighash_eq]
  exact (sampleSignatures.verify_sign () _ _).mpr rfl

end Sample

end Pricoin.SwapSignatures
