import Pricoin.StealthKeys

/-!
Payments to stealth addresses. The sender reads the keys and the kind from the string of
an address, derives a one-time key and a nonce from an ephemeral key and builds the
output with them. The receiver's scan meets the sender's derivation in the point that
the view key and the ephemeral key share.
-/
namespace Pricoin.StealthPayments

open ByteStreams KeyImageFile Transactions CurveBytes CurveBytes.Secp256k1 RingSig
open List Option Function
open JointStealth StealthScan StealthKeys

variable {F E : Type} [Field F] [AddCommGroup E] [Module F E] [DecidableEq F] [DecidableEq E]
  {lib : ScanLibrary} {id : Identity Point} {tx : Transaction} {outputIndex : UInt32}
  {out : CTOutput} {a : PublicAddress Point} {index i : ℕ} {sub : DerivedSubaddress}

section Addresses

/-- Base58 with a checksum. A payload is read back unless it is longer than asked for. -/
structure Base58Check where
  encode : List UInt8 → String
  decode : String → ℕ → Option (List UInt8)
  decode_encode : ∀ payload maxLen,
    decode (encode payload) maxLen = if payload.length ≤ maxLen then some payload else none

structure ParsedStealth where
  kind : AddressKind
  address : PublicAddress Point
  subaddressIndex : ℕ

def kStealthAddressVersion : UInt8 := 0x53

def kSubaddressVersion : UInt8 := 0x54

def kPayloadSize : ℕ := 1 + 33 + 33

def kSubaddressPayloadSize : ℕ := 1 + 33 + 33 + 4

variable (base58 : Base58Check)

def encode (a : PublicAddress Point) : String :=
  if !validAddress a then ""
  else base58.encode (kStealthAddressVersion :: (a.view.toList ++ (a.spend.toList ++ [])))

def encodeSubaddress (a : PublicAddress Point) (index : ℕ) : String :=
  if !validAddress a || index == 0 then ""
  else base58.encode
    (kSubaddressVersion :: (a.view.toList ++ (a.spend.toList ++ leBytes 4 index)))

/-- The two keys of a payload of one version and size, and what follows them. -/
def decodePayload (version : UInt8) (size : ℕ) (encoded : String) :
    Option (PublicAddress Point × List UInt8) :=
  match base58.decode encoded size with
  | none => none
  | some [] => none
  | some (first :: rest) =>
    if (first :: rest).length ≠ size then none
    else if first ≠ version then none
    else do
      let (view, rest) ← readBytes 33 rest
      let (spend, rest) ← readBytes 33 rest
      if validAddress ⟨view, spend⟩ then some (⟨view, spend⟩, rest) else none

def decode (encoded : String) : Option (PublicAddress Point) :=
  (decodePayload base58 kStealthAddressVersion kPayloadSize encoded).map Prod.fst

def decodeSubaddress (encoded : String) : Option ParsedStealth := do
  let (address, idx) ← decodePayload base58 kSubaddressVersion kSubaddressPayloadSize encoded
  if leValue idx = 0 then none else some ⟨.subaddress, address, leValue idx⟩

def parseStealthAddress (encoded : String) : Option ParsedStealth :=
  match decode base58 encoded with
  | some address => some ⟨.main, address, 0⟩
  | none => decodeSubaddress base58 encoded

variable {base58}

theorem length_payload (version : UInt8) (a : PublicAddress Point) (rest : List UInt8) :
    (version :: (a.view.toList ++ (a.spend.toList ++ rest))).length = 67 + rest.length := by
  simp [kKISize]
  omega

variable (ha : validAddress a = true)
include ha

theorem decodePayload_encode {version : UInt8} {size : ℕ} {rest : List UInt8}
    (hsize : size = 67 + rest.length) :
    decodePayload base58 version size
      (base58.encode (version :: (a.view.toList ++ (a.spend.toList ++ rest)))) =
        some (a, rest) := by
  have hlength : (version :: (a.view.toList ++ (a.spend.toList ++ rest))).length = size :=
    (length_payload version a rest).trans hsize.symm
  rw [decodePayload, base58.decode_encode, if_pos hlength.le]
  dsimp only
  rw [if_neg (not_not.mpr hlength), if_neg (not_not.mpr rfl)]
  simp [readBytes_append, ha]

theorem decode_encode : decode base58 (encode base58 a) = some a := by
  have hpayload : decodePayload base58 kStealthAddressVersion kPayloadSize
      (base58.encode (kStealthAddressVersion :: (a.view.toList ++ (a.spend.toList ++ [])))) =
        some (a, []) := decodePayload_encode ha rfl
  rw [encode, ha, if_neg (by decide), decode, hpayload]
  rfl

theorem parse_encode : parseStealthAddress base58 (encode base58 a) = some ⟨.main, a, 0⟩ := by
  rw [parseStealthAddress, decode_encode ha]

/-- The payload of a subaddress is too long for a main address. -/
theorem parse_encodeSubaddress (hpos : index ≠ 0) (hlt : index < 2 ^ 32) :
    parseStealthAddress base58 (encodeSubaddress base58 a index) =
      some ⟨.subaddress, a, index⟩ := by
  have hencode : encodeSubaddress base58 a index = base58.encode
      (kSubaddressVersion :: (a.view.toList ++ (a.spend.toList ++ leBytes 4 index))) := by
    simp [encodeSubaddress, ha, hpos]
  have hmain : decode base58 (encodeSubaddress base58 a index) = none := by
    have hlong : ¬ (kSubaddressVersion ::
        (a.view.toList ++ (a.spend.toList ++ leBytes 4 index))).length ≤ kPayloadSize := by
      rw [length_payload, leBytes_length]
      decide
    rw [hencode, decode, decodePayload, base58.decode_encode, if_neg hlong]
    rfl
  have hvalue : leValue (leBytes 4 index) = index := by
    rw [leValue_leBytes]
    exact Nat.mod_eq_of_lt hlt
  rw [parseStealthAddress, hmain]
  dsimp only
  rw [decodeSubaddress, hencode, decodePayload_encode ha (by simp [leBytes_length,
    kSubaddressPayloadSize])]
  simp [hvalue, hpos]

end Addresses

section Sending

/-- Hashing of keys, commitments and range proofs. A proof is rewound with the nonce it was made
with, for the same commitment and script, and with no other. -/
structure ProofLibrary where
  hash160 : Point → Bytes 20
  createCommitment : UInt64 → Uint256 → Option Commitment
  createRangeProof : UInt64 → Uint256 → Commitment → Script → Uint256 → Option (List UInt8)
  rewindRangeProof : Commitment → List UInt8 → Script → Uint256 → Option (UInt64 × Uint256)
  rewind_create : ∀ value blind commit script nonce proof,
    createCommitment value blind = some commit →
    createRangeProof value blind commit script nonce = some proof →
    rewindRangeProof commit proof script nonce = some (value, blind)
  rewind_other_nonce : ∀ value blind commit script nonce other proof,
    createRangeProof value blind commit script nonce = some proof → other ≠ nonce →
    rewindRangeProof commit proof script other = none

structure ResolvedDest where
  spk : Script
  R : Point
  nonce : Uint256
  otp : Point
  deriving DecidableEq

variable (curve : StealthCurve F E) (proofs : ProofLibrary)

def scanLibrary : ScanLibrary where
  hash160 := proofs.hash160
  ecdhPoint := ecdhPoint curve
  deriveSharedSecret := deriveSharedSecret curve
  recoverSpendPointFromOneTime := recoverSpendPointFromOneTime curve
  deriveRangeProofNonce := deriveRangeProofNonce curve
  rewindRangeProof := proofs.rewindRangeProof
  deriveOneTimePriv := deriveOneTimePriv curve
  computeKeyImage := computeKeyImage curve.toSecp256k1
  deriveSubaddress view spend index := (deriveSubaddress curve view spend index).map fun sub =>
    ⟨sub.publicAddress.spend, sub.spendPriv⟩

def keyLibrary : KeyLibrary Point where
  getPubKey key := (curve.scalarMultG key).getD (.replicate 33 0)

def identity (view spend : curve.Seckey) : Identity Point :=
  identityOf (keyLibrary curve) view.1 spend.1

/-- The destination for an ephemeral key. -/
def payTo (r : Scalar) (parsed : ParsedStealth) (outputIndex : UInt32) :
    Except String ResolvedDest :=
  match computeStealthR curve r parsed.address parsed.kind with
  | none => .error "stealth R derivation failed"
  | some R => match ecdhPoint curve r parsed.address.view with
    | none => .error "stealth ECDH failed"
    | some S =>
      let shared := deriveSharedSecret curve S outputIndex
      match deriveOneTimePubkey curve shared parsed.address.spend with
      | none => .error "stealth onetime pubkey failed"
      | some P => .ok
        { spk := keyHashScript (scanLibrary curve proofs) P
          R
          nonce := deriveRangeProofNonce curve S outputIndex
          otp := P }

/-- The ephemeral key: the pinned one if there is one, and a fresh one otherwise. -/
def ephemeralKey (pinned : List UInt8) (fresh : curve.Seckey) : Except String Scalar :=
  if pinned = [] then .ok fresh.1
  else if h : pinned.length = 32 then
    if curve.seckeyVerify ⟨pinned, h⟩ then .ok ⟨pinned, h⟩
    else .error "pinned ephemeral_priv is not a valid secp256k1 scalar"
  else .error "pinned ephemeral_priv must be 32 bytes"

variable (base58 : Base58Check) (isValidDestination : String → Bool)

def resolveDest (addr : String) (outputIndex : UInt32) (pinned : List UInt8)
    (fresh : curve.Seckey) : Except String ResolvedDest :=
  match parseStealthAddress base58 addr with
  | some parsed => do
    let r ← ephemeralKey curve pinned fresh
    payTo curve proofs r parsed outputIndex
  | none =>
    if !isValidDestination addr then .error "invalid address (neither stealth nor bech32)"
    else .error ("transparent (bech32) destination not supported for confidential " ++
      "sends: funds paid this way are unspendable by the recipient. Use " ++
      "a stealth (pric1...) address.")

/-- The output at a position of the transaction, in the bundle and beside it. -/
def buildOutput (i : ℕ) (amount : Int64) (blind : Uint256) (dest : ResolvedDest) :
    Except String (CTOutput × TxOut) :=
  match proofs.createCommitment amount.toUInt64 blind with
  | none => .error s!"output {i} commit failed"
  | some commit =>
    match proofs.createRangeProof amount.toUInt64 blind commit dest.spk dest.nonce with
    | none => .error s!"output {i} rangeproof failed"
    | some proof => .ok (⟨commit, proof, dest.spk, dest.R, dest.otp⟩, ⟨0, dest.spk⟩)

end Sending

section Derivations

variable {curve : StealthCurve F E} {proofs : ProofLibrary}

omit [DecidableEq E] in
theorem scalarMultG_getPubKey {key : Scalar} {x : F} (hkey : curve.seckey key = some x) :
    curve.parsePoint ((keyLibrary curve).getPubKey key) = some (x • curve.G) := by
  have hne := smul_ne_zero (seckey_ne_zero hkey) curve.generator_ne_zero
  have hpub := (scalarMultG_iff hkey).mpr (curve.parse_serialize _ hne)
  change curve.parsePoint ((curve.scalarMultG key).getD _) = _
  rw [hpub, getD_some, curve.parse_serialize _ hne]

/-- What the sender has derived: the point shared with the receiver, its hash and the one-time
key. -/
theorem payTo_eq_ok {r : Scalar} {parsed : ParsedStealth} {outputIndex : UInt32}
    {dest : ResolvedDest} (hdest : payTo curve proofs r parsed outputIndex = .ok dest) :
    ∃ x A B S h, curve.seckey r = some x ∧ curve.parsePoint parsed.address.view = some A ∧
      curve.parsePoint parsed.address.spend = some B ∧
      curve.parsePoint dest.R = some (x • basePoint curve.G B parsed.kind) ∧
      curve.parsePoint S = some (x • A) ∧
      curve.seckey (deriveSharedSecret curve S outputIndex) = some h ∧
      curve.parsePoint dest.otp = some (h • curve.G + B) ∧
      dest.spk = keyHashScript (scanLibrary curve proofs) dest.otp ∧
      dest.nonce = deriveRangeProofNonce curve S outputIndex := by
  unfold payTo at hdest
  split at hdest
  · contradiction
  rename_i R hR
  split at hdest
  · contradiction
  rename_i S hS
  dsimp only at hdest
  split at hdest
  · contradiction
  rename_i P hP
  obtain rfl := Except.ok.inj hdest
  rw [ecdhPoint_eq] at hS
  obtain ⟨x, A, hx, hA, hS⟩ := scalarMultPoint_eq_some.mp hS
  obtain ⟨h, B, hh, hB, hP⟩ := deriveOneTimePubkey_eq_some.mp hP
  obtain ⟨x', hx', hR⟩ := parse_of_computeStealthR hR hB
  obtain rfl := some.inj (hx.symm.trans hx')
  exact ⟨x, A, B, S, h, hx, hA, hB, hR, hS, hh, hP, rfl, rfl⟩

theorem recoverSpendPoint_of_otp {otp spend : Point} {shared : Uint256} {h : F} {B : E}
    (hotp : curve.parsePoint otp = some (h • curve.G + B)) (hh : curve.seckey shared = some h)
    (hB : curve.parsePoint spend = some B) :
    recoverSpendPointFromOneTime curve otp shared = some spend := by
  refine recoverSpendPointFromOneTime_eq_some.mpr ⟨_, h, hotp, hh, ?_⟩
  rw [hB, add_sub_cancel_left]

end Derivations

section Lookups

variable {point : Point}

theorem addSubaddress_of_ne {lookup : SubaddressLookup} {i : ℕ}
    (h : ∀ sub, lib.deriveSubaddress id.view id.spend i = some sub → sub.spendPub ≠ point) :
    addSubaddress lib id lookup i point = lookup point := by
  cases hsub : lib.deriveSubaddress id.view id.spend i with
  | none => rw [addSubaddress, hsub]
  | some sub =>
    rw [addSubaddress, hsub]
    exact update_of_ne (h sub hsub).symm _ _

theorem foldl_addSubaddress_of_forall_ne {indices : List ℕ}
    (h : ∀ i ∈ indices, ∀ sub, lib.deriveSubaddress id.view id.spend i = some sub →
      sub.spendPub ≠ point) (lookup : SubaddressLookup) :
    indices.foldl (addSubaddress lib id) lookup point = lookup point := by
  induction indices generalizing lookup with
  | nil => rfl
  | cons i indices ih =>
    rw [foldl_cons, ih fun j hj => h j (mem_cons_of_mem i hj)]
    exact addSubaddress_of_ne (h i mem_cons_self)

/-- An entry whose point no other index has is not overwritten. -/
theorem foldl_addSubaddress_of_mem {indices : List ℕ} {i : ℕ} {sub : Subaddress}
    (hi : i ∈ indices) (hsub : lib.deriveSubaddress id.view id.spend i = some sub)
    (h : ∀ j ∈ indices, ∀ other, lib.deriveSubaddress id.view id.spend j = some other →
      other.spendPub = sub.spendPub → j = i) (lookup : SubaddressLookup) :
    indices.foldl (addSubaddress lib id) lookup sub.spendPub = some ⟨i, sub.spendPriv⟩ := by
  induction indices generalizing lookup with
  | nil => cases hi
  | cons j indices ih =>
    rw [foldl_cons]
    have htail := fun k (hk : k ∈ indices) => h k (mem_cons_of_mem j hk)
    by_cases hlater : i ∈ indices
    · exact ih hlater htail _
    · obtain rfl : i = j := (mem_cons.mp hi).resolve_right hlater
      rw [foldl_addSubaddress_of_forall_ne, addSubaddress, hsub]
      · exact update_self _ _ _
      · rintro k hk other hother heq
        exact hlater (htail k hk other hother heq ▸ hk)

end Lookups

section Scanning

variable {lookup : SubaddressLookup}
variable {txout : TxOut}

/-- The transaction has the output at the index, in the bundle and beside it. -/
structure Carries (tx : Transaction) (outputIndex : UInt32) (out : CTOutput) (txout : TxOut) :
    Prop where
  version : tx.version = pricoinCTVersion
  output : tx.ctBundle.outputs[outputIndex.toNat]? = some out
  txout : tx.vout[outputIndex.toNat]? = some txout

theorem tryRecoverCTOutput_of_carries (htx : Carries tx outputIndex out txout) {S spend : Point}
    {found : SubaddressLookupEntry} {value : UInt64} {blind oneTimePriv : Uint256}
    {keyImage : Point} (hstealth : ∃ b ∈ out.txPubkey.toList, b ≠ 0)
    (hR : validKey out.txPubkey = true) (hotp : validKey out.oneTimePubkey = true)
    (hscript : txout.scriptPubKey = keyHashScript lib out.oneTimePubkey)
    (hS : lib.ecdhPoint id.view out.txPubkey = some S)
    (hspend : lib.recoverSpendPointFromOneTime out.oneTimePubkey
      (lib.deriveSharedSecret S outputIndex) = some spend)
    (hfound : lookup spend = some found)
    (hrewind : lib.rewindRangeProof out.commitment out.rangeproof out.scriptPubkey
      (lib.deriveRangeProofNonce S outputIndex) = some (value, blind))
    (hpriv : lib.deriveOneTimePriv (lib.deriveSharedSecret S outputIndex) found.spendPriv =
      some oneTimePriv)
    (himage : lib.computeKeyImage out.oneTimePubkey oneTimePriv = some keyImage) :
    tryRecoverCTOutput lib id lookup tx outputIndex = some
      { outputIndex
        value := value.toInt64
        blind
        commitment := out.commitment
        scriptPubKey := txout.scriptPubKey
        oneTimePriv
        keyImage
        subaddressIndex := found.index } := by
  have hR' : (CPubKey.ofBytes out.txPubkey.toList).isValid = true := hR
  have hotp' : (CPubKey.ofBytes out.oneTimePubkey.toList).isValid = true := hotp
  simp [tryRecoverCTOutput, htx.version, htx.output, htx.txout, hR', hotp', hscript, hS, hspend,
    hfound, hrewind, hpriv, himage]
  exact hstealth

/-- A check that ends a computation with nothing has been passed. -/
theorem of_guard {α : Type} {c : Prop} [Decidable c] {f : PUnit → Option α} {r : α}
    (h : (if c then none >>= f else f ⟨⟩) = some r) : f ⟨⟩ = some r := by
  split at h
  · contradiction
  · exact h

/-- What a recovered output has gone through. -/
theorem tryRecoverCTOutput_eq_some {found : RecoveredOutput}
    (h : tryRecoverCTOutput lib id lookup tx outputIndex = some found) :
    ∃ out txout S spend entry value, Carries tx outputIndex out txout ∧
      lib.ecdhPoint id.view out.txPubkey = some S ∧
      lib.recoverSpendPointFromOneTime out.oneTimePubkey (lib.deriveSharedSecret S outputIndex) =
        some spend ∧ lookup spend = some entry ∧
      lib.rewindRangeProof out.commitment out.rangeproof out.scriptPubkey
        (lib.deriveRangeProofNonce S outputIndex) = some (value, found.blind) ∧
      lib.deriveOneTimePriv (lib.deriveSharedSecret S outputIndex) entry.spendPriv =
        some found.oneTimePriv ∧
      lib.computeKeyImage out.oneTimePubkey found.oneTimePriv = some found.keyImage ∧
      found.value = value.toInt64 ∧ found.commitment = out.commitment := by
  unfold tryRecoverCTOutput at h
  split at h
  · contradiction
  rename_i hversion
  obtain ⟨out, hout, h⟩ := bind_eq_some_iff.mp h
  obtain ⟨txout, htxout, h⟩ := bind_eq_some_iff.mp h
  replace h := of_guard (of_guard (of_guard (of_guard h)))
  obtain ⟨S, hS, h⟩ := bind_eq_some_iff.mp h
  obtain ⟨spend, hspend, h⟩ := bind_eq_some_iff.mp h
  obtain ⟨entry, hentry, h⟩ := bind_eq_some_iff.mp h
  obtain ⟨⟨value, blind⟩, hopened, h⟩ := bind_eq_some_iff.mp h
  obtain ⟨oneTimePriv, hpriv, h⟩ := bind_eq_some_iff.mp h
  obtain ⟨keyImage, himage, h⟩ := bind_eq_some_iff.mp h
  obtain rfl := some.inj h
  exact ⟨out, txout, S, spend, entry, value, ⟨not_not.mp hversion, hout, htxout⟩, hS, hspend,
    hentry, hopened, hpriv, himage, rfl, rfl⟩

end Scanning

section Receiving

variable {curve : StealthCurve F E} {proofs : ProofLibrary} {base58 : Base58Check}
variable {isValidDestination : String → Bool}

/-- The hash has no collisions among the offsets of a view key, nor among the nonces of one
position, and every key has a hash that is a point. -/
structure HashAssumptions (curve : StealthCurve F E) (view : Scalar) : Prop where
  offsets : ∀ i < 2 ^ 32, ∀ j < 2 ^ 32, ∀ c < 256, ∀ d < 256,
    curve.sha256 (kSubaddrTag ++ view.toList ++ leBytes 4 i ++ [UInt8.ofNat c]) =
      curve.sha256 (kSubaddrTag ++ view.toList ++ leBytes 4 j ++ [UInt8.ofNat d]) → i = j
  nonces : ∀ (outputIndex : UInt32) (S S' : Point) (p p' : E), curve.parsePoint S = some p →
    curve.parsePoint S' = some p' → deriveRangeProofNonce curve S outputIndex =
      deriveRangeProofNonce curve S' outputIndex → S = S'
  points : ∀ P : Point, ∃ Hp, curve.hashToPoint P.toList = some Hp

/-- The strings of the wallet's addresses, each with its index. -/
inductive OwnAddress (curve : StealthCurve F E) (base58 : Base58Check)
    (view spend : curve.Seckey) (maxUsedIndex : ℕ) : String → ℕ → Prop
  | main : OwnAddress curve base58 view spend maxUsedIndex
      (encode base58 (identity curve view spend).publicAddress) 0
  | subaddress {index : ℕ} {sub : DerivedSubaddress} (hpos : 1 ≤ index)
      (hcap : index ≤ min (maxUsedIndex + kSubaddressGapLimit) (2 ^ 32 - 1))
      (hsub : deriveSubaddress curve view.1 spend.1 index = some sub) :
      OwnAddress curve base58 view spend maxUsedIndex
        (encodeSubaddress base58 sub.publicAddress index) index

variable {view spend : curve.Seckey}

omit [DecidableEq F] [DecidableEq E] in
theorem validAddress_of_parse {address : PublicAddress Point} {A B : E}
    (hA : curve.parsePoint address.view = some A) (hB : curve.parsePoint address.spend = some B) :
    validAddress address = true := by
  rw [validAddress, validKey_of_parse hA, validKey_of_parse hB]
  rfl

/-- The spend point of a subaddress is not that of the identity. -/
theorem spend_ne_of_deriveSubaddress
    (hsub : deriveSubaddress curve view.1 spend.1 index = some sub) :
    sub.publicAddress.spend ≠ (identity curve view spend).publicAddress.spend := by
  obtain ⟨-, -, a, b, m, t, -, hb, -, ht, -, hspend, -⟩ := keys_of_deriveSubaddress hsub
  intro heq
  have hmain := scalarMultG_getPubKey hb
  change curve.parsePoint (identity curve view spend).publicAddress.spend = _ at hmain
  rw [← heq, hspend, some.injEq, smul_generator_inj, add_eq_left] at hmain
  exact seckey_ne_zero ht hmain

theorem index_eq_of_spend_eq (hhash : HashAssumptions curve view.1) {j : ℕ} (hi : i < 2 ^ 32)
    (hj : j < 2 ^ 32) {other : DerivedSubaddress}
    (hsub : deriveSubaddress curve view.1 spend.1 i = some sub)
    (hother : deriveSubaddress curve view.1 spend.1 j = some other)
    (heq : other.publicAddress.spend = sub.publicAddress.spend) : j = i := by
  obtain ⟨-, -, a, b, m, t, -, hb, hm, ht, -, hspend, -⟩ := keys_of_deriveSubaddress hsub
  obtain ⟨-, -, a', b', m', t', -, hb', hm', ht', -, hspend', -⟩ :=
    keys_of_deriveSubaddress hother
  obtain rfl := some.inj (hb.symm.trans hb')
  rw [heq, hspend, some.injEq, smul_generator_inj, add_right_inj] at hspend'
  subst hspend'
  obtain rfl := seckey_inj ht ht'
  obtain ⟨-, c, hc, hmc⟩ := seckey_of_deriveSubaddressOffset hm
  obtain ⟨-, d, hd, hmd⟩ := seckey_of_deriveSubaddressOffset hm'
  exact hhash.offsets j hj i hi d hd c hc (hmd.symm.trans hmc)

variable {maxUsedIndex : ℕ}

theorem lookup_main : buildSubaddressLookup (scanLibrary curve proofs)
    (identity curve view spend) maxUsedIndex (identity curve view spend).publicAddress.spend =
      some ⟨0, spend.1⟩ := by
  rw [buildSubaddressLookup, foldl_addSubaddress_of_forall_ne, if_pos rfl]
  · rfl
  · intro i _ sub hsub
    obtain ⟨derived, hderived, rfl⟩ := map_eq_some_iff.mp hsub
    exact spend_ne_of_deriveSubaddress hderived

theorem lookup_subaddress (hhash : HashAssumptions curve view.1) (hpos : 1 ≤ index)
    (hcap : index ≤ min (maxUsedIndex + kSubaddressGapLimit) (2 ^ 32 - 1))
    (hsub : deriveSubaddress curve view.1 spend.1 index = some sub) :
    buildSubaddressLookup (scanLibrary curve proofs) (identity curve view spend) maxUsedIndex
      sub.publicAddress.spend = some ⟨index, sub.spendPriv⟩ := by
  have hderived : (scanLibrary curve proofs).deriveSubaddress (identity curve view spend).view
      (identity curve view spend).spend index =
        some ⟨sub.publicAddress.spend, sub.spendPriv⟩ :=
    map_eq_some_iff.mpr ⟨sub, hsub, rfl⟩
  have hmem : index ∈ List.range' 1 (min (maxUsedIndex + kSubaddressGapLimit) (2 ^ 32 - 1)) :=
    mem_range'_1.mpr ⟨hpos, by omega⟩
  refine foldl_addSubaddress_of_mem hmem hderived ?_ _
  intro j hj other hother heq
  obtain ⟨derived, hj', rfl⟩ := map_eq_some_iff.mp hother
  have hrange := mem_range'_1.mp hj
  exact index_eq_of_spend_eq hhash (by omega) (by omega) hsub hj' heq

/-- The keys behind one of the wallet's addresses. -/
theorem keys_of_ownAddress (hhash : HashAssumptions curve view.1) {addr : String}
    (hown : OwnAddress curve base58 view spend maxUsedIndex addr index) :
    ∃ parsed spendPriv a b, parseStealthAddress base58 addr = some parsed ∧
      buildSubaddressLookup (scanLibrary curve proofs) (identity curve view spend) maxUsedIndex
        parsed.address.spend = some ⟨index, spendPriv⟩ ∧
      curve.seckey view.1 = some a ∧ curve.seckey spendPriv = some b ∧
      curve.parsePoint parsed.address.spend = some (b • curve.G) ∧
      curve.parsePoint parsed.address.view =
        some (a • basePoint curve.G (b • curve.G) parsed.kind) := by
  cases hown with
  | main =>
    obtain ⟨a, ha⟩ := seckeyVerify_iff.mp view.2
    obtain ⟨b, hb⟩ := seckeyVerify_iff.mp spend.2
    have hA := scalarMultG_getPubKey ha
    have hB := scalarMultG_getPubKey hb
    have hvalid : validAddress (identity curve view spend).publicAddress = true :=
      validAddress_of_parse hA hB
    exact ⟨_, spend.1, a, b, parse_encode hvalid, lookup_main, ha, hb, hB, hA⟩
  | @subaddress _ sub hpos hcap hsub =>
    obtain ⟨-, hne, a, b, m, t, ha, -, -, -, hkey, hspend, hview⟩ := keys_of_deriveSubaddress hsub
    have hvalid := validAddress_of_parse hview hspend
    exact ⟨_, sub.spendPriv, a, b + t, parse_encodeSubaddress hvalid hne (by omega),
      lookup_subaddress hhash hpos hcap hsub, ha, hkey, hspend, hview⟩

variable {amount : Int64} {blind : Uint256} {dest : ResolvedDest}
variable {txout : TxOut}

theorem buildOutput_eq_ok (hbuilt : buildOutput proofs i amount blind dest = .ok (out, txout)) :
    ∃ commit proof, proofs.createCommitment amount.toUInt64 blind = some commit ∧
      proofs.createRangeProof amount.toUInt64 blind commit dest.spk dest.nonce = some proof ∧
      out = ⟨commit, proof, dest.spk, dest.R, dest.otp⟩ ∧ txout = ⟨0, dest.spk⟩ := by
  unfold buildOutput at hbuilt
  split at hbuilt
  · contradiction
  rename_i commit hcommit
  split at hbuilt
  · contradiction
  rename_i proof hproof
  obtain ⟨rfl, rfl⟩ := Prod.mk.inj (Except.ok.inj hbuilt)
  exact ⟨commit, proof, hcommit, hproof, rfl, rfl⟩

theorem payTo_of_resolveDest {addr : String} {pinned : List UInt8} {fresh : curve.Seckey}
    (hdest : resolveDest curve proofs base58 isValidDestination addr outputIndex pinned fresh =
      .ok dest) : ∃ parsed r, parseStealthAddress base58 addr = some parsed ∧
        payTo curve proofs r parsed outputIndex = .ok dest := by
  unfold resolveDest at hdest
  split at hdest
  · rename_i parsed hparsed
    cases hr : ephemeralKey curve pinned fresh with
    | error e =>
      rw [hr] at hdest
      contradiction
    | ok r =>
      rw [hr] at hdest
      exact ⟨parsed, r, hparsed, hdest⟩
  · split at hdest <;> contradiction

/-- The receiver finds a payment to a spend point that is known under the view key. -/
theorem recovered_of_payTo {view spend : curve.Seckey} (hhash : HashAssumptions curve view.1)
    {r : Scalar} {parsed : ParsedStealth} {lookup : SubaddressLookup}
    {entry : SubaddressLookupEntry} {a b : F}
    (hdest : payTo curve proofs r parsed outputIndex = .ok dest)
    (hbuilt : buildOutput proofs outputIndex.toNat amount blind dest = .ok (out, txout))
    (htx : Carries tx outputIndex out txout)
    (hentry : lookup parsed.address.spend = some entry)
    (ha : curve.seckey view.1 = some a) (hb : curve.seckey entry.spendPriv = some b)
    (hspend : curve.parsePoint parsed.address.spend = some (b • curve.G))
    (hview : curve.parsePoint parsed.address.view =
      some (a • basePoint curve.G (b • curve.G) parsed.kind)) :
    ∃ found, tryRecoverCTOutput (scanLibrary curve proofs) (identity curve view spend) lookup tx
        outputIndex = some found ∧ found.value = amount ∧ found.blind = blind ∧
      found.subaddressIndex = entry.index ∧
      curve.scalarMultG found.oneTimePriv = some out.oneTimePubkey := by
  obtain ⟨x, A, B, S, h, hx, hA, hB, hR, hS, hh, hP, hspk, hnonce⟩ := payTo_eq_ok hdest
  obtain ⟨commit, proof, hcommit, hproof, rfl, rfl⟩ := buildOutput_eq_ok hbuilt
  obtain rfl := some.inj (hB.symm.trans hspend)
  obtain rfl := some.inj (hA.symm.trans hview)
  -- both sides have multiplied one point by both keys
  have hshared : ecdhPoint curve view.1 dest.R = some S := by
    rw [ecdhPoint_eq, scalarMultPoint_iff ha hR, hS, smul_comm]
  have hrewind := proofs.rewind_create _ _ _ _ _ _ hcommit hproof
  rw [hnonce] at hrewind
  have hne : b + h ≠ 0 := by
    intro hzero
    refine curve.ne_zero_of_parse _ _ hP ?_
    rw [← add_smul, add_comm h b, hzero, zero_smul]
  have hpriv : deriveOneTimePriv curve (deriveSharedSecret curve S outputIndex) entry.spendPriv =
      some (curve.serializeScalar (b + h)) := by
    rw [deriveOneTimePriv_eq, seckeyTweakAdd_iff hb (parseScalar_of_seckey hh)]
    exact seckey_serializeScalar hne
  obtain ⟨Hp, hHp⟩ := hhash.points dest.otp
  obtain ⟨q, hq⟩ := parse_of_hashToPoint hHp
  have hkey : curve.seckey (curve.serializeScalar (b + h)) = some (b + h) :=
    seckey_serializeScalar hne
  have himage : computeKeyImage curve.toSecp256k1 dest.otp (curve.serializeScalar (b + h)) =
      some (curve.serializePoint ((b + h) • q)) := by
    rw [computeKeyImage, hHp]
    exact (scalarMultPoint_iff hkey hq).mpr
      (curve.parse_serialize _ (smul_ne_zero hne (curve.ne_zero_of_parse _ _ hq)))
  have hstealth : ∃ byte ∈ dest.R.toList, byte ≠ 0 := by
    refine ⟨dest.R.head, ?_, ?_⟩
    · rw [toList_eq_cons]
      exact mem_cons_self
    · rcases curve.compressed _ _ hR with hhead | hhead <;> simp [hhead]
  refine ⟨_, tryRecoverCTOutput_of_carries htx hstealth (validKey_of_parse hR)
    (validKey_of_parse hP) hspk hshared (recoverSpendPoint_of_otp hP hh hB) hentry hrewind hpriv
    himage, ?_, rfl, rfl, ?_⟩
  · simp
  · refine (scalarMultG_iff hkey).mpr ?_
    rw [hP, ← add_smul, add_comm]

/-- A payment to a spend point that is not known is not found. -/
theorem not_recovered_of_payTo {view spend : curve.Seckey} (hhash : HashAssumptions curve view.1)
    {r : Scalar} {parsed : ParsedStealth} {lookup : SubaddressLookup}
    (hdest : payTo curve proofs r parsed outputIndex = .ok dest)
    (hbuilt : buildOutput proofs outputIndex.toNat amount blind dest = .ok (out, txout))
    (htx : Carries tx outputIndex out txout) (hunknown : lookup parsed.address.spend = none) :
    tryRecoverCTOutput (scanLibrary curve proofs) (identity curve view spend) lookup tx
      outputIndex = none := by
  obtain ⟨x, A, B, S, h, hx, hA, hB, hR, hS, hh, hP, hspk, hnonce⟩ := payTo_eq_ok hdest
  obtain ⟨commit, proof, hcommit, hproof, rfl, rfl⟩ := buildOutput_eq_ok hbuilt
  rw [eq_none_iff_forall_ne_some]
  intro found hfound
  obtain ⟨_, _, S', candidate, entry, value, hcarries, hS', hcandidate, hentry, hopened, -⟩ :=
    tryRecoverCTOutput_eq_some hfound
  obtain rfl := some.inj (htx.output.symm.trans hcarries.output)
  change ecdhPoint curve view.1 dest.R = some S' at hS'
  rw [ecdhPoint_eq] at hS'
  obtain ⟨a, p, ha, hp, hS'⟩ := scalarMultPoint_eq_some.mp hS'
  by_cases hsame : S' = S
  · subst hsame
    have hspend := recoverSpendPoint_of_otp hP hh hB
    obtain rfl := some.inj (hspend.symm.trans hcandidate)
    rw [hunknown] at hentry
    contradiction
  · have hother : deriveRangeProofNonce curve S' outputIndex ≠ dest.nonce := by
      rw [hnonce]
      exact fun heq => hsame (hhash.nonces outputIndex S' S _ _ hS' hS heq)
    have hnone := proofs.rewind_other_nonce _ _ _ _ _ _ _ hproof hother
    exact absurd (hnone.symm.trans hopened) (by simp)

/-- The wallet finds what was paid to its addresses, as it was paid, and nothing that was paid to
a spend point that it does not know. -/
theorem recovers_own_and_no_other {view spend : curve.Seckey}
    (hhash : HashAssumptions curve view.1) {addr : String} {pinned : List UInt8}
    {fresh : curve.Seckey}
    (hdest : resolveDest curve proofs base58 isValidDestination addr outputIndex pinned fresh =
      .ok dest)
    (hbuilt : buildOutput proofs outputIndex.toNat amount blind dest = .ok (out, txout))
    (htx : Carries tx outputIndex out txout) :
    (∀ index, OwnAddress curve base58 view spend maxUsedIndex addr index →
      ∃ found, tryRecoverCTOutput (scanLibrary curve proofs) (identity curve view spend)
          (buildSubaddressLookup (scanLibrary curve proofs) (identity curve view spend)
            maxUsedIndex) tx outputIndex = some found ∧
        found.value = amount ∧ found.blind = blind ∧ found.subaddressIndex = index ∧
        curve.scalarMultG found.oneTimePriv = some out.oneTimePubkey) ∧
    ∀ parsed, parseStealthAddress base58 addr = some parsed →
      buildSubaddressLookup (scanLibrary curve proofs) (identity curve view spend) maxUsedIndex
        parsed.address.spend = none →
      tryRecoverCTOutput (scanLibrary curve proofs) (identity curve view spend)
        (buildSubaddressLookup (scanLibrary curve proofs) (identity curve view spend)
          maxUsedIndex) tx outputIndex = none := by
  obtain ⟨parsed, r, hparsed, hpay⟩ := payTo_of_resolveDest hdest
  constructor
  · intro index hown
    obtain ⟨parsed', spendPriv, a, b, hparsed', hentry, ha, hb, hspend, hview⟩ :=
      keys_of_ownAddress hhash hown
    obtain rfl := some.inj (hparsed.symm.trans hparsed')
    exact recovered_of_payTo hhash hpay hbuilt htx hentry ha hb hspend hview
  · intro parsed' hparsed' hunknown
    obtain rfl := some.inj (hparsed.symm.trans hparsed')
    exact not_recovered_of_payTo hhash hpay hbuilt htx hunknown

end Receiving

section Sample

/-- Only the first subaddress has an offset that is a scalar. -/
def sampleHash (message : List UInt8) : Uint256 :=
  if h : message.length = 63 then
    if message.drop 58 = [1, 0, 0, 0, 0] then sampleScalar 5
    else ⟨1 :: (message.drop 58 ++ List.replicate 26 0), by simp [h]⟩
  else if message.length = 61 then sampleScalar (message.getD 56 0).toNat
  else sampleScalar 2

def samplePayments : StealthCurve (ZMod 7) (ZMod 7) where
  toSecp256k1 := { sampleCurve with sha256 := sampleHash }
  compressed b p h := by
    rw [← sampleCurve.serialize_of_parse b p h]
    exact .inl rfl

def sampleOffsetMessage (i c : ℕ) : List UInt8 :=
  kSubaddrTag ++ (sampleScalar 3).toList ++ leBytes 4 i ++ [UInt8.ofNat c]

theorem sampleHash_offset (i c : ℕ) : sampleHash (sampleOffsetMessage i c) =
    if leBytes 4 i ++ [UInt8.ofNat c] = [1, 0, 0, 0, 0] then sampleScalar 5
    else List.Vector.cons 1 (⟨leBytes 4 i ++ [UInt8.ofNat c] ++ List.replicate 26 0,
      by simp [leBytes_length]⟩ : Bytes 31) := by
  have hlength : (sampleOffsetMessage i c).length = 63 := by
    simp [sampleOffsetMessage, leBytes_length, kSubaddrTag, ascii]
  have hdrop : (sampleOffsetMessage i c).drop 58 = leBytes 4 i ++ [UInt8.ofNat c] := by
    rw [sampleOffsetMessage, append_assoc]
    exact drop_left' (by simp [kSubaddrTag, ascii])
  rw [sampleHash, dif_pos hlength]
  simp only [hdrop]
  rfl

theorem index_eq_of_leBytes {j : ℕ} (hi : i < 2 ^ 32) (hj : j < 2 ^ 32) {c d : UInt8}
    (h : leBytes 4 i ++ [c] = leBytes 4 j ++ [d]) : i = j := by
  have hvalue := (leBytes_append_inj.mp h).1
  omega

theorem sampleNonce (S : Point) (outputIndex : UInt32) :
    deriveRangeProofNonce samplePayments S outputIndex =
      sampleScalar (S.toList.getD 32 0).toNat := by
  have hlength : (nonceTag ++ S.toList ++ leBytes 4 outputIndex.toNat).length = 61 := by
    simp [leBytes_length, nonceTag, ascii, kKISize]
  have hlast : (nonceTag ++ S.toList ++ leBytes 4 outputIndex.toNat).getD 56 0 =
      S.toList.getD 32 0 := by
    simp [getD_eq_getElem?_getD, nonceTag, ascii, kKISize]
  change sampleHash _ = _
  rw [sampleHash, dif_neg (by rw [hlength]; decide), if_pos hlength, hlast]

theorem hashAssumptions_sample : HashAssumptions samplePayments (sampleScalar 3) where
  offsets := by
    intro i hi j hj c _ d _ h
    change sampleHash (sampleOffsetMessage i c) = sampleHash (sampleOffsetMessage j d) at h
    rw [sampleHash_offset, sampleHash_offset] at h
    split at h
    · rename_i hfirst
      split at h
      · rename_i hsecond
        exact index_eq_of_leBytes hi hj (hfirst.trans hsecond.symm)
      · have hhead : (0 : UInt8) = 1 := congrArg List.Vector.head h
        exact absurd hhead (by decide)
    · split at h
      · have hhead : (1 : UInt8) = 0 := congrArg List.Vector.head h
        exact absurd hhead (by decide)
      · have htail := congrArg List.Vector.toList (congrArg List.Vector.tail h)
        exact index_eq_of_leBytes hi hj (append_cancel_right htail)
  nonces := by
    intro outputIndex S S' p p' hS hS' h
    rw [sampleNonce, sampleNonce] at h
    rw [← sampleCurve.serialize_of_parse S p hS, ← sampleCurve.serialize_of_parse S' p' hS'] at h ⊢
    clear hS hS'
    revert p p'
    decide +kernel
  points := by
    intro P
    have hlength : (hashToPointTag ++ P.toList ++ leBytes 4 0).length = 56 := by
      simp [leBytes_length, hashToPointTag, ascii, kKISize]
    have htry : samplePayments.tryCounter P.toList 0 = some (samplePoint 2) := by
      have hhash : sampleHash (hashToPointTag ++ P.toList ++ leBytes 4 0) = sampleScalar 2 := by
        rw [sampleHash, dif_neg (by rw [hlength]; decide), if_neg (by rw [hlength]; decide)]
      change ([2, 3].findSome? fun parity => (sampleCurve.parsePoint (List.Vector.cons parity
        (sampleHash (hashToPointTag ++ P.toList ++ leBytes 4 0)))).map _) = _
      rw [hhash]
      decide +kernel
    refine ⟨samplePoint 2, ?_⟩
    rw [hashToPoint, show 2 ^ 32 = (2 ^ 32 - 1) + 1 by rfl, hashToPointFrom, htry]
    rfl

/-- Base 256 without a checksum. -/
def sampleBase58 : Base58Check where
  encode payload := String.ofList (payload.map fun b => Char.ofNat b.toNat)
  decode s maxLen :=
    let payload := s.toList.map fun c => UInt8.ofNat c.toNat
    if payload.length ≤ maxLen then some payload else none
  decode_encode payload maxLen := by
    have hbyte : ∀ b : UInt8, UInt8.ofNat (Char.ofNat b.toNat).toNat = b := by
      intro b
      have hvalid : b.toNat.isValidChar := .inl (by have := b.toNat_lt; omega)
      have hchar : (Char.ofNat b.toNat).toNat = b.toNat := by
        rw [Char.ofNat, dif_pos hvalid]
        rfl
      rw [hchar, UInt8.ofNat_toNat]
    have hpayload : (String.ofList (payload.map fun b => Char.ofNat b.toNat)).toList.map
        (fun c => UInt8.ofNat c.toNat) = payload := by
      simp [List.map_map, Function.comp_def, hbyte]
    simp only [hpayload]

/-- Proofs that show everything, the nonce included. -/
def sampleProofs : ProofLibrary where
  hash160 P := leBlock 20 (leValue P.toList)
  createCommitment _ _ := some (.replicate 33 8)
  createRangeProof value blind _ _ nonce :=
    some (nonce.toList ++ (blind.toList ++ leBytes 8 value.toNat))
  rewindRangeProof _ proof _ nonce := do
    let (stated, rest) ← readBytes 32 proof
    let (blind, value) ← readBytes 32 rest
    if stated = nonce then some (UInt64.ofNat (leValue value), blind) else none
  rewind_create value blind commit script nonce proof _ hproof := by
    have hvalue : leValue (leBytes 8 value.toNat) = value.toNat := by
      rw [leValue_leBytes]
      exact Nat.mod_eq_of_lt value.toNat_lt
    rw [← some.inj hproof]
    simp [readBytes_append, hvalue]
  rewind_other_nonce value blind commit script nonce other proof hproof hne := by
    rw [← some.inj hproof]
    simp [readBytes_append, hne.symm]

def sampleView : samplePayments.Seckey := ⟨sampleScalar 3, by decide +kernel⟩

def sampleSpend : samplePayments.Seckey := ⟨sampleScalar 1, by decide +kernel⟩

def sampleEphemeral : samplePayments.Seckey := ⟨sampleScalar 2, by decide +kernel⟩

/-- The first subaddress, with the spend key 6. -/
def sampleSubaddress : PublicAddress Point := ⟨samplePoint 4, samplePoint 6⟩

def sampleStranger : PublicAddress Point := ⟨samplePoint 5, samplePoint 4⟩

def sampleTx (out : CTOutput) (txout : TxOut) : Transaction :=
  { version := pricoinCTVersion
    vin := []
    vout := [txout]
    nLockTime := 0
    ctBundle :=
      { inputCommitments := []
        outputs := [out]
        ringInputs := []
        transparentFee := 1 } }

theorem carries_sampleTx (out : CTOutput) (txout : TxOut) :
    Carries (sampleTx out txout) 0 out txout :=
  ⟨rfl, rfl, rfl⟩

/-- The only subaddress with an offset is the first. -/
theorem index_of_deriveSubaddress_sample (hlt : index < 2 ^ 32)
    (hsub : deriveSubaddress samplePayments sampleView.1 sampleSpend.1 index = some sub) :
    index = 1 := by
  obtain ⟨-, -, a, b, m, t, -, -, hm, ht, -⟩ := keys_of_deriveSubaddress hsub
  obtain ⟨-, c, -, rfl⟩ := seckey_of_deriveSubaddressOffset hm
  change samplePayments.seckey (sampleHash (sampleOffsetMessage index c)) = some t at ht
  rw [sampleHash_offset] at ht
  split at ht
  · rename_i hfirst
    exact index_eq_of_leBytes hlt (by decide) (hfirst : _ = leBytes 4 1 ++ [0])
  · have hscalar := samplePayments.serializeScalar_of_parse _ _ (seckey_eq_some.mp ht).1
    have hhead : (0 : UInt8) = 1 := congrArg List.Vector.head hscalar
    exact absurd hhead (by decide)

def sampleDest (R nonce P : ℕ) : ResolvedDest :=
  ⟨keyHashScript (scanLibrary samplePayments sampleProofs) (samplePoint P), samplePoint R,
    sampleScalar nonce, samplePoint P⟩

def sampleBuilt (dest : ResolvedDest) : CTOutput × TxOut :=
  (⟨.replicate 33 8,
    dest.nonce.toList ++ ((sampleScalar 5).toList ++ leBytes 8 700), dest.spk, dest.R, dest.otp⟩,
    ⟨0, dest.spk⟩)

theorem buildOutput_sample (dest : ResolvedDest) :
    buildOutput sampleProofs (0 : UInt32).toNat 700 (sampleScalar 5) dest =
      .ok (sampleBuilt dest) :=
  rfl

theorem resolveDest_sampleSubaddress :
    resolveDest samplePayments sampleProofs sampleBase58 (fun _ => false)
      (encodeSubaddress sampleBase58 sampleSubaddress 1) 0 [] sampleEphemeral =
        .ok (sampleDest 5 1 1) := by
  rw [resolveDest, parse_encodeSubaddress (by decide +kernel) (by decide) (by decide)]
  change payTo samplePayments sampleProofs sampleEphemeral.1
    ⟨.subaddress, sampleSubaddress, 1⟩ 0 = .ok (sampleDest 5 1 1)
  decide +kernel

theorem resolveDest_sampleStranger :
    resolveDest samplePayments sampleProofs sampleBase58 (fun _ => false)
      (encode sampleBase58 sampleStranger) 0 [] sampleEphemeral = .ok (sampleDest 2 3 6) := by
  rw [resolveDest, parse_encode (by decide +kernel)]
  change payTo samplePayments sampleProofs sampleEphemeral.1
    ⟨.main, sampleStranger, 0⟩ 0 = .ok (sampleDest 2 3 6)
  decide +kernel

theorem ownAddress_sampleSubaddress : OwnAddress samplePayments sampleBase58 sampleView sampleSpend
    0 (encodeSubaddress sampleBase58 sampleSubaddress 1) 1 := by
  have hsub : (deriveSubaddress samplePayments sampleView.1 sampleSpend.1 1).map
      (·.publicAddress) = some sampleSubaddress := by
    decide +kernel
  obtain ⟨sub, hsub, haddress⟩ := map_eq_some_iff.mp hsub
  rw [← haddress]
  exact OwnAddress.subaddress (le_refl 1) (by decide) hsub

theorem lookup_sampleStranger : buildSubaddressLookup (scanLibrary samplePayments sampleProofs)
    (identity samplePayments sampleView sampleSpend) 0 sampleStranger.spend = none := by
  rw [buildSubaddressLookup, foldl_addSubaddress_of_forall_ne]
  · decide +kernel
  · intro index hindex sub hsub heq
    obtain ⟨derived, hderived, rfl⟩ := map_eq_some_iff.mp hsub
    have hrange := mem_range'_1.mp hindex
    obtain rfl := index_of_deriveSubaddress_sample (by omega) hderived
    have hspend : (deriveSubaddress samplePayments sampleView.1 sampleSpend.1 1).map
        (·.publicAddress.spend) = some (samplePoint 6) := by
      decide +kernel
    change deriveSubaddress samplePayments sampleView.1 sampleSpend.1 1 = some derived at hderived
    change derived.publicAddress.spend = sampleStranger.spend at heq
    rw [hderived, map_some, heq] at hspend
    exact absurd hspend (by decide +kernel)

theorem recovers_own_and_no_other_sample :
    (∃ found, tryRecoverCTOutput (scanLibrary samplePayments sampleProofs)
        (identity samplePayments sampleView sampleSpend)
        (buildSubaddressLookup (scanLibrary samplePayments sampleProofs)
          (identity samplePayments sampleView sampleSpend) 0)
        (sampleTx (sampleBuilt (sampleDest 5 1 1)).1 (sampleBuilt (sampleDest 5 1 1)).2) 0 =
          some found ∧
      found.value = 700 ∧ found.blind = sampleScalar 5 ∧ found.subaddressIndex = 1 ∧
      samplePayments.scalarMultG found.oneTimePriv = some (samplePoint 1)) ∧
    tryRecoverCTOutput (scanLibrary samplePayments sampleProofs)
      (identity samplePayments sampleView sampleSpend)
      (buildSubaddressLookup (scanLibrary samplePayments sampleProofs)
        (identity samplePayments sampleView sampleSpend) 0)
      (sampleTx (sampleBuilt (sampleDest 2 3 6)).1 (sampleBuilt (sampleDest 2 3 6)).2) 0 =
        none := by
  have hhash : HashAssumptions samplePayments sampleView.1 := hashAssumptions_sample
  constructor
  · exact (recovers_own_and_no_other hhash resolveDest_sampleSubaddress (buildOutput_sample _)
      (carries_sampleTx _ _)).1 1 ownAddress_sampleSubaddress
  · exact (recovers_own_and_no_other hhash resolveDest_sampleStranger (buildOutput_sample _)
      (carries_sampleTx _ _)).2 _ (parse_encode (by decide +kernel)) lookup_sampleStranger

end Sample

end Pricoin.StealthPayments
