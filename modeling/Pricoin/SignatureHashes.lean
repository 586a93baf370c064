import Pricoin.SymbolicHashes
import Pricoin.Transactions

/-!
The hashes that input signatures sign. Base and witness v0 signatures sign a
preimage followed by the hash of the confidential bundle and the hash type, so that
their hash determines the bundle. A base signature of a single output that does not
exist signs a constant, and the hash of Taproot signatures leaves the bundle out.
-/
namespace Pricoin.SignatureHashes

open ByteStreams Codecs Codec Transactions SymbolicHashes List Option

variable {tx : Transaction}

inductive SigVersion where
  | base
  | witnessV0
  | taproot
  | tapscript
  deriving DecidableEq, Repr

abbrev sighashDefault : UInt8 := 0

abbrev sighashAll : UInt8 := 1

abbrev sighashNone : UInt8 := 2

abbrev sighashSingle : UInt8 := 3

abbrev sighashAnyoneCanPay : UInt8 := 0x80

section ScriptCode

def opPushData1 : UInt8 := 0x4c

def opPushData2 : UInt8 := 0x4d

def opPushData4 : UInt8 := 0x4e

def opCodeSeparator : UInt8 := 0xab

/-- The size of the data that an opcode pushes, with what follows the size. -/
def pushSize (opcode : UInt8) (pc : Script) : Option (ℕ × Script) :=
  if opcode < opPushData1 then some (opcode.toNat, pc)
  else if opcode = opPushData1 then (uint 1).read pc
  else if opcode = opPushData2 then (uint 2).read pc
  else (uint 4).read pc

/-- The next opcode of a script and the rest behind it, which a push that does not fit leaves at
its data. -/
def getScriptOp : Script → Option UInt8 × Script
  | [] => (none, [])
  | opcode :: pc =>
    if opcode ≤ opPushData4 then
      match pushSize opcode pc with
      | none => (none, pc)
      | some (nSize, pc) => if pc.length < nSize then (none, pc) else (some opcode, pc.drop nSize)
    else (some opcode, pc)

/-- The script without its code separators and how many there are. Each turn takes at least one
byte, so the length of the script is fuel enough. -/
def splitSeparators : ℕ → Script → Script × ℕ
  | 0, _ => ([], 0)
  | fuel + 1, pc =>
    match getScriptOp pc with
    | (none, rest) => (pc.take (pc.length - rest.length), 0)
    | (some opcode, rest) =>
      let (code, separators) := splitSeparators fuel rest
      if opcode = opCodeSeparator then (code, separators + 1)
      else (pc.take (pc.length - rest.length) ++ code, separators)

def serializeScriptCode (scriptCode : Script) : List UInt8 :=
  let (code, separators) := splitSeparators (scriptCode.length + 1) scriptCode
  writeCompactSize (scriptCode.length - separators) ++ code

end ScriptCode

/-- What a hash type says about inputs and outputs. -/
structure HashFlags where
  fAnyoneCanPay : Bool
  fHashSingle : Bool
  fHashNone : Bool

def hashFlags (nHashType : UInt8) : HashFlags :=
  ⟨nHashType &&& sighashAnyoneCanPay ≠ 0, nHashType &&& 0x1f = sighashSingle,
    nHashType &&& 0x1f = sighashNone⟩

section Serializer

variable (tx : Transaction) (scriptCode : Script) (nIn : ℕ) (flags : HashFlags)

def writeUint32 (n : UInt32) : List UInt8 := (uint 4).write n.toNat

def writeScript (script : Script) : List UInt8 := (byteVector maxSize).write script

def nullTxOut : TxOut := ⟨-1, []⟩

def serializeInput (nInput : ℕ) : List UInt8 :=
  let nInput := if flags.fAnyoneCanPay then nIn else nInput
  match tx.vin[nInput]? with
  | none => []
  | some txin =>
    prevoutRefCodec.write txin.prevout ++
      (if nInput ≠ nIn then writeScript [] else serializeScriptCode scriptCode) ++
      writeUint32 (if nInput ≠ nIn ∧ (flags.fHashSingle ∨ flags.fHashNone) then 0
        else txin.nSequence)

def serializeOutput (nOutput : ℕ) : List UInt8 :=
  if flags.fHashSingle ∧ nOutput ≠ nIn then txOutCodec.write nullTxOut
  else ((tx.vout[nOutput]?).map txOutCodec.write).getD []

/-- The transaction as base signatures see it. -/
def serializeForSignature : List UInt8 :=
  let nInputs := if flags.fAnyoneCanPay then 1 else tx.vin.length
  let nOutputs := if flags.fHashNone then 0 else if flags.fHashSingle then nIn + 1
    else tx.vout.length
  writeUint32 tx.version ++ writeCompactSize nInputs ++
    (List.range nInputs).flatMap (serializeInput tx scriptCode nIn flags) ++
    writeCompactSize nOutputs ++
    (List.range nOutputs).flatMap (serializeOutput tx nIn flags) ++ writeUint32 tx.nLockTime

end Serializer

variable {δ : Type} (H : Hasher δ)

def getPrevoutsSHA256 (tx : Transaction) : δ :=
  H.sha256 (bytes (tx.vin.flatMap (fun txin => prevoutRefCodec.write txin.prevout)))

def getSequencesSHA256 (tx : Transaction) : δ :=
  H.sha256 (bytes (tx.vin.flatMap (fun txin => writeUint32 txin.nSequence)))

def getOutputsSHA256 (tx : Transaction) : δ := H.sha256 (bytes (tx.vout.flatMap txOutCodec.write))

def getSpentAmountsSHA256 (outputsSpent : List TxOut) : δ :=
  H.sha256 (bytes (outputsSpent.flatMap (fun out => int64.write out.nValue)))

def getSpentScriptsSHA256 (outputsSpent : List TxOut) : δ :=
  H.sha256 (bytes (outputsSpent.flatMap (fun out => writeScript out.scriptPubKey)))

/-- Hashes that the signature checks of a transaction share. -/
structure PrecomputedTransactionData (δ : Type) where
  prevoutsSingleHash : δ
  sequencesSingleHash : δ
  outputsSingleHash : δ
  spentAmountsSingleHash : δ
  spentScriptsSingleHash : δ
  spentOutputs : List TxOut
  bip143SegwitReady : Bool
  bip341TaprootReady : Bool

/-- An output that looks like a Taproot output. -/
def looksTaproot (out : TxOut) : Bool :=
  out.scriptPubKey.length = 34 && out.scriptPubKey.head? = some 0x51

/-- The hashes are computed for every transaction here; the flags say which of them the code has
computed and may read. -/
def PrecomputedTransactionData.init (tx : Transaction) (spentOutputs : List TxOut) :
    PrecomputedTransactionData δ where
  prevoutsSingleHash := getPrevoutsSHA256 H tx
  sequencesSingleHash := getSequencesSHA256 H tx
  outputsSingleHash := getOutputsSHA256 H tx
  spentAmountsSingleHash := getSpentAmountsSHA256 H spentOutputs
  spentScriptsSingleHash := getSpentScriptsSHA256 H spentOutputs
  spentOutputs := spentOutputs
  bip143SegwitReady := (List.range tx.vin.length).any fun i =>
    ((tx.vin[i]?).any (fun txin => !txin.scriptWitness.isEmpty)) &&
      !((spentOutputs[i]?).any looksTaproot)
  bip341TaprootReady := !spentOutputs.isEmpty && (List.range tx.vin.length).any fun i =>
    ((tx.vin[i]?).any (fun txin => !txin.scriptWitness.isEmpty)) &&
      ((spentOutputs[i]?).any looksTaproot)

/-- Hash contents without the hash type, one for each kind of hash type. -/
abbrev SigHashCache (δ : Type) := ℕ → Option (Script × Message δ)

def cacheIndex (nHashType : UInt8) : ℕ :=
  let flags := hashFlags nHashType
  3 * flags.fAnyoneCanPay.toNat + 2 * flags.fHashSingle.toNat + flags.fHashNone.toNat

def SigHashCache.load (cache : SigHashCache δ) (nHashType : UInt8) (scriptCode : Script) :
    Option (Message δ) :=
  match cache (cacheIndex nHashType) with
  | some (script, content) => if script = scriptCode then some content else none
  | none => none

def SigHashCache.store (cache : SigHashCache δ) (nHashType : UInt8) (scriptCode : Script)
    (content : Message δ) : SigHashCache δ :=
  Function.update cache (cacheIndex nHashType) (some (scriptCode, content))

def hashBundle (b : CTBundle) : δ := H.sha256 (bytes (writeBundle b))

/-- The zero hash, or a digest. -/
def writeHash : Option δ → Message δ
  | none => bytes (List.replicate 32 0)
  | some d => [.digest d]

section Ecdsa

variable (scriptCode : Script) (tx : Transaction) (nIn : ℕ) (nHashType : UInt8) (amount : ℤ)

/-- The preimage of a witness v0 signature. -/
def witnessV0Content (cache : Option (PrecomputedTransactionData δ)) : Message δ :=
  let flags := hashFlags nHashType
  let cached := cache.filter (fun data => data.bip143SegwitReady)
  let hashPrevouts := if flags.fAnyoneCanPay then none else some (H.sha256Uint256
    ((cached.map (fun data => data.prevoutsSingleHash)).getD (getPrevoutsSHA256 H tx)))
  let hashSequence := if flags.fAnyoneCanPay || flags.fHashSingle || flags.fHashNone then none
    else some (H.sha256Uint256
      ((cached.map (fun data => data.sequencesSingleHash)).getD (getSequencesSHA256 H tx)))
  let hashOutputs :=
    if !flags.fHashSingle && !flags.fHashNone then some (H.sha256Uint256
      ((cached.map (fun data => data.outputsSingleHash)).getD (getOutputsSHA256 H tx)))
    else if flags.fHashSingle then
      (tx.vout[nIn]?).map (fun out => H.getHash (bytes (txOutCodec.write out)))
    else none
  let txin := tx.vin[nIn]?
  bytes (writeUint32 tx.version) ++ writeHash hashPrevouts ++ writeHash hashSequence ++
    bytes ((txin.map (fun txin => prevoutRefCodec.write txin.prevout)).getD []) ++
    bytes (writeScript scriptCode) ++ bytes (int64.write amount) ++
    bytes ((txin.map (fun txin => writeUint32 txin.nSequence)).getD []) ++
    writeHash hashOutputs ++ bytes (writeUint32 tx.nLockTime)

/-- The content of the hash before the hash type. -/
def signatureContent (sigversion : SigVersion) (cache : Option (PrecomputedTransactionData δ)) :
    Message δ :=
  (if sigversion = .witnessV0 then witnessV0Content H scriptCode tx nIn nHashType amount cache
    else bytes (serializeForSignature tx scriptCode nIn (hashFlags nHashType))) ++
  if tx.version = pricoinCTVersion then [.digest (hashBundle H tx.ctBundle)] else []

/-- The hash and the cache of contents, which confidential transactions neither read nor write. -/
def signatureHash (sigversion : SigVersion) (cache : Option (PrecomputedTransactionData δ))
    (sighashCache : Option (SigHashCache δ)) : δ × Option (SigHashCache δ) :=
  if sigversion ≠ .witnessV0 ∧ (hashFlags nHashType).fHashSingle ∧ tx.vout.length ≤ nIn then
    (H.one, sighashCache)
  else
    let loaded := if tx.version = pricoinCTVersion then none
      else sighashCache.bind (fun cache => cache.load nHashType scriptCode)
    match loaded with
    | some content => (H.getHash (content ++ bytes (writeUint32 nHashType.toUInt32)), sighashCache)
    | none =>
      let content := signatureContent H scriptCode tx nIn nHashType amount sigversion cache
      let stored := if tx.version = pricoinCTVersion then sighashCache
        else sighashCache.map (fun cache => cache.store nHashType scriptCode content)
      (H.getHash (content ++ bytes (writeUint32 nHashType.toUInt32)), stored)

end Ecdsa

section Schnorr

/-- What the execution of a witness v1 script has prepared. -/
structure ScriptExecutionData (δ : Type) where
  annexHash : Option δ
  tapleafHash : δ
  codeseparatorPos : UInt32
  /-- The hash of the output at the index of the input, once it has been computed. -/
  outputHash : Option δ

def tapSighashTag : List UInt8 := ascii "TapSighash"

def hasherTapSighash : Message δ :=
  let taghash := H.sha256 (bytes tapSighashTag)
  [.digest taghash, .digest taghash]

def validSchnorrHashType (hashType : UInt8) : Bool :=
  hashType ≤ 0x03 || (0x81 ≤ hashType && hashType ≤ 0x83)

variable (execdata : ScriptExecutionData δ) (tx : Transaction) (inPos : ℕ) (hashType : UInt8)

/-- Data about the transaction as a whole. -/
def schnorrTransactionData (cache : PrecomputedTransactionData δ) : Message δ :=
  bytes (writeUint32 tx.version) ++ bytes (writeUint32 tx.nLockTime) ++
  (if hashType &&& 0x80 ≠ sighashAnyoneCanPay then
    [.digest cache.prevoutsSingleHash, .digest cache.spentAmountsSingleHash,
      .digest cache.spentScriptsSingleHash, .digest cache.sequencesSingleHash]
  else []) ++
  if hashType = sighashDefault ∨ hashType &&& 0x03 = sighashAll then
    [.digest cache.outputsSingleHash]
  else []

/-- Data about the input and the output that it spends. -/
def schnorrInputData (sigversion : SigVersion) (cache : PrecomputedTransactionData δ) :
    Message δ :=
  let extFlag : UInt8 := if sigversion = .tapscript then 1 else 0
  bytes [2 * extFlag + if execdata.annexHash.isSome then 1 else 0] ++
  (if hashType &&& 0x80 = sighashAnyoneCanPay then
    bytes (((tx.vin[inPos]?).map (fun txin => prevoutRefCodec.write txin.prevout)).getD []) ++
      bytes (((cache.spentOutputs[inPos]?).map txOutCodec.write).getD []) ++
      bytes (((tx.vin[inPos]?).map (fun txin => writeUint32 txin.nSequence)).getD [])
  else bytes (writeUint32 (UInt32.ofNat inPos))) ++
  (execdata.annexHash.map (fun d => [Atom.digest d])).getD []

/-- Data about the output when only one is signed, if there is one. -/
def schnorrOutputData : Option (Message δ) :=
  if hashType ≠ sighashDefault ∧ hashType &&& 0x03 = sighashSingle then
    (tx.vout[inPos]?).map fun out =>
      [.digest (execdata.outputHash.getD (H.sha256 (bytes (txOutCodec.write out))))]
  else some []

def signatureHashSchnorr (sigversion : SigVersion) (cache : PrecomputedTransactionData δ) :
    Option δ := do
  guard (cache.bip341TaprootReady = true)
  guard (validSchnorrHashType hashType = true)
  let outputData ← schnorrOutputData H execdata tx inPos hashType
  let tapscriptData := if sigversion = .tapscript then
      [.digest execdata.tapleafHash] ++ bytes [0] ++ bytes (writeUint32 execdata.codeseparatorPos)
    else []
  some (H.sha256 (hasherTapSighash H ++ bytes [0] ++ bytes [hashType] ++
    schnorrTransactionData tx hashType cache ++
    schnorrInputData execdata tx inPos hashType sigversion cache ++ outputData ++ tapscriptData))

end Schnorr

/-- What the checker of an input knows besides the transaction. -/
structure SigningContext (δ : Type) where
  scriptCode : Script
  nIn : ℕ
  hashType : UInt8
  amount : ℤ
  sigversion : SigVersion
  spentOutputs : List TxOut
  execdata : ScriptExecutionData δ
  sighashCache : Option (SigHashCache δ)

/-- The hash that a signature of an input is checked against. There is none where data is missing
or the hash type is refused. -/
def checkerHash (ctx : SigningContext δ) (tx : Transaction) : Option δ :=
  let txdata := PrecomputedTransactionData.init H tx ctx.spentOutputs
  let ecdsa := (signatureHash H ctx.scriptCode tx ctx.nIn ctx.hashType ctx.amount ctx.sigversion
    (some txdata) ctx.sighashCache).1
  if tx.vin.length ≤ ctx.nIn then none
  else
    match ctx.sigversion with
    | .base => some ecdsa
    | .witnessV0 => if ctx.amount < 0 then none else some ecdsa
    | .taproot | .tapscript =>
      signatureHashSchnorr H ctx.execdata tx ctx.nIn ctx.hashType ctx.sigversion txdata

section Binding

variable {H}
variable {ctx : SigningContext δ}

/-- The vectors of a bundle have lengths that a machine word holds. -/
def CTBundle.Addressable (b : CTBundle) : Prop := b.Within (2 ^ 64 - 1)

/-- The limit of a reader does not show in what is written. -/
theorem write_bundleCodec (limit : ℕ) (b : CTBundle) :
    (bundleCodec limit).write b = writeBundle b := by
  simp only [writeBundle, bundleCodec, ringInputCodec, signatureCodec, outputCodec, via,
    pair, vector, byteVector]

theorem writeBundle_injective {b b' : CTBundle} (hb : CTBundle.Addressable b)
    (hb' : CTBundle.Addressable b') (h : writeBundle b = writeBundle b') : b = b' := by
  have h64 : 2 ^ 64 - 1 < 2 ^ 64 := by decide
  refine (lossless_bundle h64 hb).eq_of_write_eq (lossless_bundle h64 hb') ?_
  rw [write_bundleCodec, write_bundleCodec, h]

theorem hashBundle_injective {b b' : CTBundle} (hb : CTBundle.Addressable b)
    (hb' : CTBundle.Addressable b') (h : hashBundle H b = hashBundle H b') : b = b' :=
  writeBundle_injective hb hb' (bytes_injective (H.injective h))

/-- The constant that a base signature signs instead of a missing single output. -/
def SingleOutOfRange (tx : Transaction) (nIn : ℕ) (hashType : UInt8) : Prop :=
  hashType &&& 0x1f = sighashSingle ∧ tx.vout.length ≤ nIn

/-- Caches or not, a confidential transaction hashes its bundle in front of the hash type. -/
theorem signatureHash_of_v4 {scriptCode : Script} {nIn : ℕ} {nHashType : UInt8} {amount : ℤ}
    {sigversion : SigVersion} {cache : Option (PrecomputedTransactionData δ)}
    {sighashCache : Option (SigHashCache δ)} (hv : tx.version = pricoinCTVersion)
    (hrange : ¬ (sigversion ≠ .witnessV0 ∧ SingleOutOfRange tx nIn nHashType)) :
    ∃ front, (signatureHash H scriptCode tx nIn nHashType amount sigversion cache
        sighashCache).1 =
      H.getHash (front ++ .digest (hashBundle H tx.ctBundle) ::
        bytes (writeUint32 nHashType.toUInt32)) := by
  have hone : ¬ (sigversion ≠ .witnessV0 ∧ (hashFlags nHashType).fHashSingle = true ∧
      tx.vout.length ≤ nIn) := by
    simpa [SingleOutOfRange, hashFlags] using hrange
  unfold signatureHash
  rw [if_neg hone, if_pos hv]
  refine ⟨if sigversion = .witnessV0 then
      witnessV0Content H scriptCode tx nIn nHashType amount cache
    else bytes (serializeForSignature tx scriptCode nIn (hashFlags nHashType)), ?_⟩
  simp only [signatureContent, if_pos hv, append_assoc, singleton_append]

theorem bundle_eq_of_signatureHash_eq {scriptCode : Script} {tx tx' : Transaction} {nIn : ℕ}
    {nHashType : UInt8} {amount : ℤ} {sigversion : SigVersion}
    {cache cache' : Option (PrecomputedTransactionData δ)}
    {sighashCache : Option (SigHashCache δ)}
    (hv : tx.version = pricoinCTVersion) (hv' : tx'.version = pricoinCTVersion)
    (hb : CTBundle.Addressable tx.ctBundle) (hb' : CTBundle.Addressable tx'.ctBundle)
    (hrange : ¬ (sigversion ≠ .witnessV0 ∧ SingleOutOfRange tx nIn nHashType))
    (h : (signatureHash H scriptCode tx nIn nHashType amount sigversion cache sighashCache).1 =
      (signatureHash H scriptCode tx' nIn nHashType amount sigversion cache' sighashCache).1) :
    tx.ctBundle = tx'.ctBundle := by
  obtain ⟨front, hfront⟩ := signatureHash_of_v4 hv hrange
  rw [hfront] at h
  by_cases hrange' : sigversion ≠ .witnessV0 ∧ SingleOutOfRange tx' nIn nHashType
  · have hone : sigversion ≠ .witnessV0 ∧ (hashFlags nHashType).fHashSingle = true ∧
        tx'.vout.length ≤ nIn := by
      simpa [SingleOutOfRange, hashFlags] using hrange'
    unfold signatureHash at h
    rw [if_pos hone] at h
    exact absurd h (H.getHash_ne_one _)
  · obtain ⟨front', hfront'⟩ := signatureHash_of_v4 hv' hrange'
    rw [hfront'] at h
    exact hashBundle_injective hb hb' (H.digest_eq_of_getHash_eq rfl h)

/-- Another bundle for a transaction. -/
def swapFee (tx : Transaction) : Transaction :=
  { tx with ctBundle := { tx.ctBundle with transparentFee := tx.ctBundle.transparentFee + 1 } }

theorem swapFee_ne (tx : Transaction) : (swapFee tx).ctBundle ≠ tx.ctBundle := by
  intro h
  have hfee : tx.ctBundle.transparentFee + 1 = tx.ctBundle.transparentFee :=
    congrArg CTBundle.transparentFee h
  simp at hfee

theorem addressable_swapFee (h : CTBundle.Addressable tx.ctBundle) :
    CTBundle.Addressable (swapFee tx).ctBundle :=
  ⟨h.inputs, h.rings, h.members, h.outs, h.strings⟩

theorem checkerHash_of_singleOutOfRange (hversion : ctx.sigversion = .base)
    (hin : ctx.nIn < tx.vin.length) (hrange : SingleOutOfRange tx ctx.nIn ctx.hashType) :
    checkerHash H ctx tx = some H.one := by
  have hsingle : (hashFlags ctx.hashType).fHashSingle = true := by
    simpa [hashFlags] using hrange.1
  simp [checkerHash, signatureHash, hversion, hsingle, hrange.2, hin]

theorem checkerHash_swapFee (hversion : ctx.sigversion = .taproot ∨ ctx.sigversion = .tapscript) :
    checkerHash H ctx (swapFee tx) = checkerHash H ctx tx := by
  unfold checkerHash
  rcases hversion with hversion | hversion <;> rw [hversion] <;> rfl

theorem eq_signatureHash_of_checkerHash {d : δ}
    (hversion : ctx.sigversion = .base ∨ ctx.sigversion = .witnessV0)
    (h : checkerHash H ctx tx = some d) :
    d = (signatureHash H ctx.scriptCode tx ctx.nIn ctx.hashType ctx.amount ctx.sigversion
      (some (PrecomputedTransactionData.init H tx ctx.spentOutputs)) ctx.sighashCache).1 := by
  unfold checkerHash at h
  dsimp only at h
  split at h
  · contradiction
  · rcases hversion with hversion | hversion <;> rw [hversion] at h ⊢ <;> dsimp only at h
    · exact (some.inj h).symm
    · split at h
      · contradiction
      · exact (some.inj h).symm

/-- Some input with a witness spends a Taproot output. -/
def SpendsTaproot (tx : Transaction) (spentOutputs : List TxOut) : Prop :=
  ∃ (i : ℕ) (txin : TxIn) (out : TxOut), tx.vin[i]? = some txin ∧ txin.scriptWitness ≠ [] ∧
    spentOutputs[i]? = some out ∧ looksTaproot out = true

/-- A Taproot signature has a hash: the data is there, the hash type is known, and so is the one
output that it may ask for. -/
structure TaprootHashed (ctx : SigningContext δ) (tx : Transaction) : Prop where
  ready : SpendsTaproot tx ctx.spentOutputs
  hashType : validSchnorrHashType ctx.hashType = true
  output : ctx.hashType &&& 0x03 = sighashSingle → ctx.nIn < tx.vout.length

theorem bip341TaprootReady_iff {spentOutputs : List TxOut} :
    (PrecomputedTransactionData.init H tx spentOutputs).bip341TaprootReady = true ↔
      SpendsTaproot tx spentOutputs := by
  simp only [PrecomputedTransactionData.init, Bool.and_eq_true, List.any_eq_true, List.mem_range,
    Option.any_eq_true, Bool.not_eq_true', List.isEmpty_eq_false_iff]
  constructor
  · rintro ⟨-, i, -, ⟨txin, htxin, hwitness⟩, out, hout, hlooks⟩
    exact ⟨i, txin, out, htxin, hwitness, hout, hlooks⟩
  · rintro ⟨i, txin, out, htxin, hwitness, hout, hlooks⟩
    refine ⟨?_, i, (List.getElem?_eq_some_iff.mp htxin).1, ⟨txin, htxin, hwitness⟩, out, hout,
      hlooks⟩
    rintro rfl
    cases hout

theorem exists_schnorrOutputData_iff {execdata : ScriptExecutionData δ} {inPos : ℕ}
    {hashType : UInt8} : (∃ m, schnorrOutputData H execdata tx inPos hashType = some m) ↔
      (hashType &&& 0x03 = sighashSingle → inPos < tx.vout.length) := by
  unfold schnorrOutputData
  split
  · rename_i hsingle
    simp [hsingle.2, map_eq_some_iff, List.getElem?_eq_some_iff]
  · rename_i hsingle
    refine iff_of_true ⟨[], rfl⟩ fun h => absurd ⟨?_, h⟩ hsingle
    rintro rfl
    exact absurd h (by decide)

theorem exists_checkerHash_iff (hversion : ctx.sigversion = .taproot ∨ ctx.sigversion = .tapscript)
    (hin : ctx.nIn < tx.vin.length) :
    (∃ d, checkerHash H ctx tx = some d) ↔ TaprootHashed ctx tx := by
  have hcheck : checkerHash H ctx tx = signatureHashSchnorr H ctx.execdata tx ctx.nIn ctx.hashType
      ctx.sigversion (PrecomputedTransactionData.init H tx ctx.spentOutputs) := by
    unfold checkerHash
    rcases hversion with hversion | hversion <;> simp only [if_neg (not_le.mpr hin), hversion]
  simp only [hcheck, signatureHashSchnorr, bind_eq_bind, bind_eq_some_iff]
  constructor
  · rintro ⟨d, _, hready, _, htype, m, hm, -⟩
    exact ⟨bip341TaprootReady_iff.mp ((guard_eq_some' _).mp hready),
      (guard_eq_some' _).mp htype, exists_schnorrOutputData_iff.mp ⟨m, hm⟩⟩
  · rintro ⟨hready, htype, hout⟩
    obtain ⟨m, hm⟩ := exists_schnorrOutputData_iff.mpr hout
    exact ⟨_, (), (guard_eq_some' _).mpr (bip341TaprootReady_iff.mpr hready), (),
      (guard_eq_some' _).mpr htype, m, hm, rfl⟩

/-- A checker's hash that no other bundle has: the condition under which it is so. -/
def BindsBundle (ctx : SigningContext δ) (tx : Transaction) : Prop :=
  match ctx.sigversion with
  | .base => ¬ SingleOutOfRange tx ctx.nIn ctx.hashType
  | .witnessV0 => True
  | .taproot | .tapscript => ¬ TaprootHashed ctx tx

/-- The hash that an input of a confidential transaction signs determines the bundle exactly for
witness v0 signatures and for base signatures other than of a missing single output. Taproot
signatures, where there are any, do not. -/
theorem checkerHash_binds_iff {ctx : SigningContext δ} {tx : Transaction}
    (hv : tx.version = pricoinCTVersion) (hb : CTBundle.Addressable tx.ctBundle)
    (hin : ctx.nIn < tx.vin.length) :
    (∀ tx' : Transaction, tx'.version = pricoinCTVersion → CTBundle.Addressable tx'.ctBundle →
      tx'.ctBundle ≠ tx.ctBundle →
      ∀ d, checkerHash H ctx tx = some d → checkerHash H ctx tx' ≠ some d) ↔
    BindsBundle ctx tx := by
  constructor
  · intro hall
    have hswap := hall (swapFee tx) hv (addressable_swapFee hb) (swapFee_ne tx)
    have htaproot (hversion : ctx.sigversion = .taproot ∨ ctx.sigversion = .tapscript) :
        ¬ TaprootHashed ctx tx := by
      intro hhashed
      obtain ⟨d, hd⟩ := (exists_checkerHash_iff hversion hin).mpr hhashed
      exact hswap d hd (by rwa [checkerHash_swapFee hversion])
    unfold BindsBundle
    cases hversion : ctx.sigversion with
    | base =>
      intro hrange
      have hone : checkerHash H ctx tx = some H.one :=
        checkerHash_of_singleOutOfRange hversion hin hrange
      have hone' : checkerHash H ctx (swapFee tx) = some H.one :=
        checkerHash_of_singleOutOfRange hversion hin hrange
      exact hswap _ hone hone'
    | witnessV0 => trivial
    | taproot => exact htaproot (.inl hversion)
    | tapscript => exact htaproot (.inr hversion)
  · intro hbinds tx' hv' hb' hne d hd hd'
    unfold BindsBundle at hbinds
    cases hversion : ctx.sigversion with
    | base =>
      rw [hversion] at hbinds
      have hecdsa := eq_signatureHash_of_checkerHash (.inl hversion) hd
      have hecdsa' := eq_signatureHash_of_checkerHash (.inl hversion) hd'
      exact hne (bundle_eq_of_signatureHash_eq hv hv' hb hb' (fun hrange => hbinds hrange.2)
        (hecdsa.symm.trans hecdsa')).symm
    | witnessV0 =>
      have hecdsa := eq_signatureHash_of_checkerHash (.inr hversion) hd
      have hecdsa' := eq_signatureHash_of_checkerHash (.inr hversion) hd'
      exact hne (bundle_eq_of_signatureHash_eq hv hv' hb hb' (fun hrange => hrange.1 hversion)
        (hecdsa.symm.trans hecdsa')).symm
    | taproot =>
      rw [hversion] at hbinds
      exact hbinds ((exists_checkerHash_iff (.inl hversion) hin).mp ⟨d, hd⟩)
    | tapscript =>
      rw [hversion] at hbinds
      exact hbinds ((exists_checkerHash_iff (.inr hversion) hin).mp ⟨d, hd⟩)

end Binding

section Sample

/-- Two inputs with witnesses and one output. -/
def sampleSigned : Transaction where
  version := pricoinCTVersion
  vin := [⟨⟨.replicate 32 1, 0⟩, [], 0, [[1]]⟩,
    ⟨⟨.replicate 32 2, 0⟩, [], 0, [[1]]⟩]
  vout := [⟨0, []⟩]
  nLockTime := 0
  ctBundle := ⟨[.replicate 33 3, .replicate 33 4], [], [], 5⟩

/-- Both inputs spend outputs that look like Taproot outputs. -/
def sampleContext (sigversion : SigVersion) (hashType : UInt8) (nIn : ℕ) :
    SigningContext Digest where
  scriptCode := [0xac]
  nIn := nIn
  hashType := hashType
  amount := 0
  sigversion := sigversion
  spentOutputs := List.replicate 2 ⟨0, 0x51 :: 0x20 :: List.replicate 32 9⟩
  execdata := ⟨none, .one, 0xFFFFFFFF, none⟩
  sighashCache := none

theorem sampleSigned_addressable : CTBundle.Addressable sampleSigned.ctBundle :=
  ⟨by decide, by decide, by simp [sampleSigned], by decide, by simp [sampleSigned]⟩

/-- Taproot signatures with the default hash type and base signatures of a single output without
one have the same hash for another bundle. -/
theorem checkerHash_ignores_bundle :
    (swapFee sampleSigned).ctBundle ≠ sampleSigned.ctBundle ∧
    (∀ sigversion ∈ [SigVersion.taproot, .tapscript], ∃ d,
      checkerHash termHasher (sampleContext sigversion sighashDefault 0) sampleSigned = some d ∧
      checkerHash termHasher (sampleContext sigversion sighashDefault 0) (swapFee sampleSigned) =
        some d) ∧
    checkerHash termHasher (sampleContext .base sighashSingle 1) sampleSigned = some .one ∧
    checkerHash termHasher (sampleContext .base sighashSingle 1) (swapFee sampleSigned) =
      some .one := by
  refine ⟨swapFee_ne _, ?_, rfl, rfl⟩
  simp only [forall_mem_cons, not_mem_nil, false_imp_iff, implies_true, and_true]
  exact ⟨⟨_, rfl, rfl⟩, ⟨_, rfl, rfl⟩⟩

theorem checkerHash_binds_iff_sample :
    ∃ d, checkerHash termHasher (sampleContext .witnessV0 sighashAll 0) sampleSigned = some d ∧
      checkerHash termHasher (sampleContext .witnessV0 sighashAll 0) (swapFee sampleSigned) ≠
        some d := by
  have hbinds : BindsBundle (sampleContext .witnessV0 sighashAll 0) sampleSigned :=
    trivial
  exact ⟨_, rfl, (checkerHash_binds_iff rfl sampleSigned_addressable (by decide)).mpr hbinds
    (swapFee sampleSigned) rfl (addressable_swapFee sampleSigned_addressable) (swapFee_ne _) _ rfl⟩

end Sample

end Pricoin.SignatureHashes
