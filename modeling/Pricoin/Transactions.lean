import Mathlib.Algebra.GroupWithZero.Nat
import Mathlib.Algebra.Ring.Int.Defs
import Pricoin.Codecs
import Pricoin.KeyImageFile

/-!
Transactions with their confidential bundle, and their serialisation without
witnesses. A transaction of version 4 spends its inputs in one of two modes. In
direct mode the bundle has a commitment for every input. In ring mode it has a
ring input instead, whose signature hides which member of the ring is spent and
carries a key image. Hash functions stay parameters.
-/
namespace Pricoin.Transactions

open ByteStreams Codecs Codec KeyImageFile List

variable {limit : ℕ} {tx : Transaction}

abbrev Txid := Uint256

abbrev Commitment := Bytes 33

abbrev Scalar := Bytes 32

abbrev Script := List UInt8

/-- The index of the null outpoint. -/
def nullIndex : ℕ := 0xFFFFFFFF

structure OutPoint where
  hash : Txid
  n : ℕ
  deriving DecidableEq

def OutPoint.isNull (o : OutPoint) : Bool := o.hash = nullHash && o.n = nullIndex

/-- An outpoint as transactions and rings refer to it. -/
structure PrevoutRef where
  hash : Uint256
  n : UInt32
  deriving DecidableEq

def PrevoutRef.outPoint (r : PrevoutRef) : OutPoint := ⟨r.hash, r.n.toNat⟩

structure TxIn where
  prevout : PrevoutRef
  scriptSig : Script
  nSequence : UInt32
  scriptWitness : List (List UInt8)
  deriving DecidableEq

structure TxOut where
  nValue : ℤ
  scriptPubKey : Script
  deriving DecidableEq

structure CTOutput where
  commitment : Commitment
  rangeproof : List UInt8
  scriptPubkey : Script
  txPubkey : Bytes 33
  oneTimePubkey : Point
  deriving DecidableEq

/-- A multi-layer ring signature. -/
structure Signature where
  keyImage : Point
  commitmentImage : Point
  c0 : Scalar
  s : List Scalar
  deriving DecidableEq

structure CTRingInput where
  ring : List PrevoutRef
  pseudoCommitment : Commitment
  sig : Signature
  deriving DecidableEq

structure CTBundle where
  inputCommitments : List Commitment
  ringInputs : List CTRingInput
  outputs : List CTOutput
  transparentFee : UInt64
  deriving DecidableEq

structure Transaction where
  version : UInt32
  vin : List TxIn
  vout : List TxOut
  nLockTime : UInt32
  ctBundle : CTBundle
  deriving DecidableEq

def pricoinCTVersion : UInt32 := 4

namespace Transaction

def isCoinBase (tx : Transaction) : Bool :=
  match tx.vin with
  | [txin] => txin.prevout.outPoint.isNull
  | _ => false

/-- A version 4 transaction with ring inputs, whose outputs to spend are hidden. -/
def isV4Ring (tx : Transaction) : Bool :=
  tx.version = pricoinCTVersion && !tx.ctBundle.ringInputs.isEmpty

/-- The ring inputs that consensus reads. Other versions carry no bundle on the wire. -/
def ringInputs (tx : Transaction) : List CTRingInput :=
  if tx.version = pricoinCTVersion then tx.ctBundle.ringInputs else []

def keyImages (tx : Transaction) : List Point := tx.ringInputs.map (fun ri => ri.sig.keyImage)

def prevouts (tx : Transaction) : List OutPoint := tx.vin.map (fun txin => txin.prevout.outPoint)

def getValueOut (tx : Transaction) : ℤ := (tx.vout.map (fun out => out.nValue)).sum

end Transaction

section Bundle

def emptySignature : Signature :=
  ⟨.replicate 33 0, .replicate 33 0, .replicate 32 0, []⟩

def prevoutRefCodec : Codec PrevoutRef :=
  ((block 32).pair (uint 4)).via (fun r => (r.hash, r.n.toNat))
    (fun p => ⟨p.1, UInt32.ofNat p.2⟩)

def signatureCodec (limit : ℕ) : Codec Signature :=
  ((block 33).pair ((block 33).pair ((block 32).pair
    (vector limit (block 32))))).via
      (fun sig => (sig.keyImage, sig.commitmentImage, sig.c0, sig.s))
      (fun p => ⟨p.1, p.2.1, p.2.2.1, p.2.2.2⟩)

def ringInputCodec (limit : ℕ) : Codec CTRingInput :=
  ((vector limit prevoutRefCodec).pair ((block 33).pair (signatureCodec limit))).via
    (fun ri => (ri.ring, ri.pseudoCommitment, ri.sig)) (fun p => ⟨p.1, p.2.1, p.2.2⟩)

def outputCodec (limit : ℕ) : Codec CTOutput :=
  ((block 33).pair ((byteVector limit).pair ((byteVector limit).pair
    ((block 33).pair (block 33))))).via
      (fun o => (o.commitment, o.rangeproof, o.scriptPubkey, o.txPubkey, o.oneTimePubkey))
      (fun p => ⟨p.1, p.2.1, p.2.2.1, p.2.2.2.1, p.2.2.2.2⟩)

def bundleCodec (limit : ℕ) : Codec CTBundle :=
  ((vector limit (block 33)).pair ((vector limit (ringInputCodec limit)).pair
    ((vector limit (outputCodec limit)).pair (uint 8)))).via
      (fun b => (b.inputCommitments, b.ringInputs, b.outputs, b.transparentFee.toNat))
      (fun p => ⟨p.1, p.2.1, p.2.2.1, UInt64.ofNat p.2.2.2⟩)

/-- Every vector of the bundle has at most `limit` elements. -/
structure CTBundle.Within (limit : ℕ) (b : CTBundle) : Prop where
  inputs : b.inputCommitments.length ≤ limit
  rings : b.ringInputs.length ≤ limit
  members : ∀ ri ∈ b.ringInputs, ri.ring.length ≤ limit ∧ ri.sig.s.length ≤ limit
  outs : b.outputs.length ≤ limit
  strings : ∀ o ∈ b.outputs, o.rangeproof.length ≤ limit ∧ o.scriptPubkey.length ≤ limit

theorem lossless_prevoutRef (r : PrevoutRef) : prevoutRefCodec.Lossless r :=
  Lossless.via ((lossless_block r.hash).pair (lossless_uint r.n.toNat_lt))
    (by simp)

theorem lossless_signature (h64 : limit < 2 ^ 64) {sig : Signature} (hs : sig.s.length ≤ limit) :
    (signatureCodec limit).Lossless sig :=
  Lossless.via ((lossless_block _).pair ((lossless_block _).pair
    ((lossless_block _).pair (lossless_vector hs (Nat.lt_of_le_of_lt hs h64)
      fun _ _ => lossless_block _)))) rfl

theorem lossless_ringInput (h64 : limit < 2 ^ 64) {ri : CTRingInput}
    (hring : ri.ring.length ≤ limit) (hs : ri.sig.s.length ≤ limit) :
    (ringInputCodec limit).Lossless ri :=
  Lossless.via ((lossless_vector hring (Nat.lt_of_le_of_lt hring h64)
    fun r _ => lossless_prevoutRef r).pair
      ((lossless_block _).pair (lossless_signature h64 hs))) rfl

theorem lossless_output (h64 : limit < 2 ^ 64) {o : CTOutput} (hproof : o.rangeproof.length ≤ limit)
    (hscript : o.scriptPubkey.length ≤ limit) : (outputCodec limit).Lossless o :=
  Lossless.via ((lossless_block _).pair
    ((lossless_byteVector hproof (Nat.lt_of_le_of_lt hproof h64)).pair
      ((lossless_byteVector hscript (Nat.lt_of_le_of_lt hscript h64)).pair
        ((lossless_block _).pair (lossless_block _))))) rfl

theorem lossless_bundle (h64 : limit < 2 ^ 64) {b : CTBundle} (h : b.Within limit) :
    (bundleCodec limit).Lossless b :=
  Lossless.via
    ((lossless_vector h.inputs (Nat.lt_of_le_of_lt h.inputs h64)
      fun _ _ => lossless_block _).pair
    ((lossless_vector h.rings (Nat.lt_of_le_of_lt h.rings h64)
      fun ri hri => lossless_ringInput h64 (h.members ri hri).1 (h.members ri hri).2).pair
    ((lossless_vector h.outs (Nat.lt_of_le_of_lt h.outs h64)
      fun o ho => lossless_output h64 (h.strings o ho).1 (h.strings o ho).2).pair
    (lossless_uint b.transparentFee.toNat_lt)))) (by simp)

end Bundle

section Serialize

def txInCodec : Codec TxIn :=
  (prevoutRefCodec.pair ((byteVector maxSize).pair (uint 4))).via
    (fun txin => (txin.prevout, txin.scriptSig, txin.nSequence.toNat))
    (fun p => ⟨p.1, p.2.1, UInt32.ofNat p.2.2, []⟩)

def txOutCodec : Codec TxOut :=
  (int64.pair (byteVector maxSize)).via (fun out => (out.nValue, out.scriptPubKey))
    (fun p => ⟨p.1, p.2⟩)

def writeBundle (b : CTBundle) : List UInt8 := (bundleCodec maxSize).write b

/-- `SerializeTransaction` with `TX_NO_WITNESS`. -/
def serializeNoWitness (tx : Transaction) : List UInt8 :=
  (uint 4).write tx.version.toNat ++ ((vector maxSize txInCodec).write tx.vin ++
    ((vector maxSize txOutCodec).write tx.vout ++ ((uint 4).write tx.nLockTime.toNat ++
      if tx.version = pricoinCTVersion then writeBundle tx.ctBundle else [])))

def Transaction.hasWitness (tx : Transaction) : Bool :=
  tx.vin.any (fun txin => !txin.scriptWitness.isEmpty)

/-- `SerializeTransaction` with `TX_WITH_WITNESS`. The empty vector and the flag announce the
witnesses, which are left out when there are none. -/
def serializeWithWitness (tx : Transaction) : List UInt8 :=
  if tx.hasWitness then
    (uint 4).write tx.version.toNat ++ ((vector maxSize txInCodec).write [] ++ ([1] ++
      ((vector maxSize txInCodec).write tx.vin ++
        ((vector maxSize txOutCodec).write tx.vout ++
          (tx.vin.flatMap (fun txin =>
            (vector maxSize (byteVector maxSize)).write txin.scriptWitness) ++
              ((uint 4).write tx.nLockTime.toNat ++
                if tx.version = pricoinCTVersion then writeBundle tx.ctBundle else []))))))
  else serializeNoWitness tx

/-- The transaction with every ring signature blanked, which is what ring signatures sign. -/
def withoutRingSigs (tx : Transaction) : Transaction :=
  { tx with ctBundle := { tx.ctBundle with
      ringInputs := tx.ctBundle.ringInputs.map (fun ri => { ri with sig := emptySignature }) } }

def TxIn.withoutWitness (txin : TxIn) : TxIn := { txin with scriptWitness := [] }

theorem length_write_prevoutRef (r : PrevoutRef) : (prevoutRefCodec.write r).length = 36 := by
  simp [prevoutRefCodec, via, pair, block, uint]

theorem length_write_txIn (txin : TxIn) :
    36 + txin.scriptSig.length ≤ (txInCodec.write txin).length := by
  have hscript := byte.length_le_flatMap (fun b (_ : b ∈ txin.scriptSig) => Nat.one_pos)
  simp only [txInCodec, via, pair, byteVector, vector, length_append,
    length_write_prevoutRef]
  omega

theorem length_write_txOut (out : TxOut) :
    8 + out.scriptPubKey.length ≤ (txOutCodec.write out).length := by
  have hscript := byte.length_le_flatMap (fun b (_ : b ∈ out.scriptPubKey) => Nat.one_pos)
  have hvalue : (int64.write out.nValue).length = 8 := by
    simp [int64, via, uint]
  simp only [txOutCodec, via, pair, byteVector, vector, length_append,
    hvalue]
  omega

/-- A serialised transaction has at least a byte for every input and output. -/
theorem length_le_serializeNoWitness (tx : Transaction) :
    tx.vin.length ≤ (serializeNoWitness tx).length ∧
    tx.vout.length ≤ (serializeNoWitness tx).length := by
  have hin := txInCodec.length_le_flatMap fun txin (_ : txin ∈ tx.vin) => by
    have := length_write_txIn txin
    omega
  have hout := txOutCodec.length_le_flatMap fun out (_ : out ∈ tx.vout) => by
    have := length_write_txOut out
    omega
  simp only [serializeNoWitness, vector, length_append]
  omega

/-- A serialised bundle has at least a byte for every element of its vectors. -/
theorem within_length_writeBundle (b : CTBundle) : b.Within (writeBundle b).length := by
  have hin := (block 33).length_le_flatMap fun c (_ : c ∈ b.inputCommitments) => by
    simp [block]
  have hring (ri : CTRingInput) : 33 + ri.ring.length + ri.sig.s.length ≤
      ((ringInputCodec maxSize).write ri).length := by
    have hmembers := prevoutRefCodec.length_le_flatMap fun r (_ : r ∈ ri.ring) => by
      rw [length_write_prevoutRef]
      omega
    have hs := (block 32).length_le_flatMap fun c (_ : c ∈ ri.sig.s) => by
      simp [block]
    have hpseudo : ((block 33).write ri.pseudoCommitment).length = 33 := by
      simp [block]
    simp only [ringInputCodec, signatureCodec, via, pair, vector,
      length_append, hpseudo]
    omega
  have hout (o : CTOutput) : 33 + o.rangeproof.length + o.scriptPubkey.length ≤
      ((outputCodec maxSize).write o).length := by
    have hproof := byte.length_le_flatMap (fun c (_ : c ∈ o.rangeproof) => Nat.one_pos)
    have hscript := byte.length_le_flatMap (fun c (_ : c ∈ o.scriptPubkey) => Nat.one_pos)
    have hcommitment : ((block 33).write o.commitment).length = 33 := by
      simp [block]
    simp only [outputCodec, via, pair, byteVector, vector,
      length_append, hcommitment]
    omega
  have hrings := (ringInputCodec maxSize).length_le_flatMap fun ri (_ : ri ∈ b.ringInputs) => by
    have := hring ri
    omega
  have houts := (outputCodec maxSize).length_le_flatMap fun o (_ : o ∈ b.outputs) => by
    have := hout o
    omega
  have htotal : (b.inputCommitments.flatMap (block 33).write).length +
      (b.ringInputs.flatMap (ringInputCodec maxSize).write).length +
      (b.outputs.flatMap (outputCodec maxSize).write).length ≤ (writeBundle b).length := by
    simp only [writeBundle, bundleCodec, via, pair, vector, length_append]
    omega
  refine ⟨by omega, by omega, fun ri hri => ?_, by omega, fun o ho => ?_⟩
  · have := hring ri
    have := (ringInputCodec maxSize).length_write_le_flatMap hri
    omega
  · have := hout o
    have := (outputCodec maxSize).length_write_le_flatMap ho
    omega

/-- What a reader takes from a serialised transaction is the transaction without witnesses. -/
structure SameBody (tx tx' : Transaction) : Prop where
  version : tx.version = tx'.version
  vin : tx.vin.map TxIn.withoutWitness = tx'.vin.map TxIn.withoutWitness
  vout : tx.vout = tx'.vout
  nLockTime : tx.nLockTime = tx'.nLockTime
  bundle : tx.version = pricoinCTVersion → tx.ctBundle = tx'.ctBundle

theorem isCoinBase_eq_prevouts (tx : Transaction) :
    tx.isCoinBase = match tx.prevouts with | [o] => o.isNull | _ => false := by
  unfold Transaction.isCoinBase Transaction.prevouts
  rcases tx.vin with _ | ⟨txin, _ | ⟨txin', rest⟩⟩ <;> rfl

namespace SameBody

variable {tx tx' : Transaction}

variable (h : SameBody tx tx')
include h

theorem prevouts_eq : tx.prevouts = tx'.prevouts := by
  have hvin := congrArg (List.map (fun txin => txin.prevout.outPoint)) h.vin
  simpa [Transaction.prevouts, TxIn.withoutWitness, Function.comp_def] using hvin

theorem scripts_eq :
    tx.vin.map (fun txin => txin.scriptSig) = tx'.vin.map (fun txin => txin.scriptSig) := by
  have hvin := congrArg (List.map (fun txin => txin.scriptSig)) h.vin
  simpa [TxIn.withoutWitness, Function.comp_def] using hvin

theorem isCoinBase_eq : tx.isCoinBase = tx'.isCoinBase := by
  rw [isCoinBase_eq_prevouts, isCoinBase_eq_prevouts, h.prevouts_eq]

theorem isV4Ring_eq : tx.isV4Ring = tx'.isV4Ring := by
  unfold Transaction.isV4Ring
  rw [← h.version]
  by_cases hv : tx.version = pricoinCTVersion
  · rw [h.bundle hv]
  · simp [hv]

theorem keyImages_eq : tx.keyImages = tx'.keyImages := by
  unfold Transaction.keyImages Transaction.ringInputs
  rw [← h.version]
  split
  · rename_i hv
    rw [h.bundle hv]
  · rfl

end SameBody

/-- Sizes and amounts that the wire format has room for. -/
structure Transaction.Fits (tx : Transaction) : Prop where
  size : (serializeNoWitness tx).length ≤ maxSize
  amounts : ∀ out ∈ tx.vout, -2 ^ 63 ≤ out.nValue ∧ out.nValue < 2 ^ 63

theorem Transaction.Fits.parts (h : tx.Fits) :
    (tx.vin.flatMap txInCodec.write).length ≤ maxSize ∧
    (tx.vout.flatMap txOutCodec.write).length ≤ maxSize ∧
    (tx.version = pricoinCTVersion → (writeBundle tx.ctBundle).length ≤ maxSize) := by
  have hsize := h.size
  simp only [serializeNoWitness, vector, length_append] at hsize
  refine ⟨by omega, by omega, fun hv => ?_⟩
  rw [if_pos hv] at hsize
  omega

theorem reads_txIn {txin : TxIn} (hscript : txin.scriptSig.length ≤ maxSize) :
    txInCodec.Reads txin txin.withoutWitness := by
  have h64 : maxSize < 2 ^ 64 := by decide
  have hparts := (lossless_prevoutRef txin.prevout).pair
    ((lossless_byteVector hscript (by omega)).pair
      (@lossless_uint 4 _ txin.nSequence.toNat_lt))
  intro rest
  simp [txInCodec, via, hparts rest, TxIn.withoutWitness]

theorem reads_vin {vin : List TxIn} (hcount : vin.length ≤ maxSize)
    (hscripts : ∀ txin ∈ vin, txin.scriptSig.length ≤ maxSize) :
    (vector maxSize txInCodec).Reads vin (vin.map TxIn.withoutWitness) := by
  have h64 : maxSize < 2 ^ 64 := by decide
  refine reads_vector hcount (by omega) ?_
  rw [forall₂_map_right_iff, forall₂_same]
  exact fun txin htxin => reads_txIn (hscripts txin htxin)

theorem lossless_vout {vout : List TxOut} (hcount : vout.length ≤ maxSize)
    (hscripts : ∀ out ∈ vout, out.scriptPubKey.length ≤ maxSize)
    (hamounts : ∀ out ∈ vout, -2 ^ 63 ≤ out.nValue ∧ out.nValue < 2 ^ 63) :
    (vector maxSize txOutCodec).Lossless vout := by
  have h64 : maxSize < 2 ^ 64 := by decide
  refine lossless_vector hcount (by omega) fun out hout => ?_
  have hscript := hscripts out hout
  obtain ⟨hlow, hhigh⟩ := hamounts out hout
  exact Lossless.via ((lossless_int64 hlow hhigh).pair
    (lossless_byteVector hscript (by omega))) rfl

theorem reads_txIns (h : tx.Fits) :
    (vector maxSize txInCodec).Reads tx.vin (tx.vin.map TxIn.withoutWitness) := by
  refine reads_vin ((length_le_serializeNoWitness tx).1.trans h.size) fun txin htxin => ?_
  have hmem := txInCodec.length_write_le_flatMap htxin
  have hlen := length_write_txIn txin
  have hpart := h.parts.1
  omega

theorem lossless_txOuts (h : tx.Fits) : (vector maxSize txOutCodec).Lossless tx.vout := by
  refine lossless_vout ((length_le_serializeNoWitness tx).2.trans h.size) (fun out hout => ?_)
    h.amounts
  have hmem := txOutCodec.length_write_le_flatMap hout
  have hlen := length_write_txOut out
  have hpart := h.parts.2.1
  omega

theorem CTBundle.Within.mono {b : CTBundle} {m n : ℕ} (h : b.Within m) (hle : m ≤ n) :
    b.Within n :=
  ⟨h.inputs.trans hle, h.rings.trans hle,
    fun ri hri => ⟨(h.members ri hri).1.trans hle, (h.members ri hri).2.trans hle⟩,
    h.outs.trans hle, fun o ho => ⟨(h.strings o ho).1.trans hle, (h.strings o ho).2.trans hle⟩⟩

/-- The serialisation determines the transaction up to its witnesses. -/
theorem sameBody_of_serializeNoWitness {tx' : Transaction} (h : tx.Fits) (h' : tx'.Fits)
    (heq : serializeNoWitness tx = serializeNoWitness tx') : SameBody tx tx' := by
  unfold serializeNoWitness at heq
  obtain ⟨hversion, heq⟩ := (lossless_uint tx.version.toNat_lt).eq_of_append_eq
    (lossless_uint tx'.version.toNat_lt) heq
  obtain ⟨hvin, heq⟩ := (reads_txIns h).eq_of_append_eq (reads_txIns h') heq
  obtain ⟨hvout, heq⟩ := (lossless_txOuts h).eq_of_append_eq (lossless_txOuts h') heq
  obtain ⟨hlock, heq⟩ := (lossless_uint tx.nLockTime.toNat_lt).eq_of_append_eq
    (lossless_uint tx'.nLockTime.toNat_lt) heq
  refine ⟨UInt32.toNat_inj.mp hversion, hvin, hvout, UInt32.toNat_inj.mp hlock, fun hv => ?_⟩
  have hv' : tx'.version = pricoinCTVersion := UInt32.toNat_inj.mp hversion ▸ hv
  rw [if_pos hv, if_pos hv'] at heq
  have h64 : maxSize < 2 ^ 64 := by decide
  exact (lossless_bundle h64 ((within_length_writeBundle _).mono (h.parts.2.2 hv))).eq_of_write_eq
    (lossless_bundle h64 ((within_length_writeBundle _).mono (h'.parts.2.2 hv'))) heq

end Serialize

end Pricoin.Transactions
