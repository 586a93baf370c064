import Pricoin.Coins
import Pricoin.JointStealth

/-!
Recognition of confidential outputs. The wallet knows its spend points: that of the
identity and those of its subaddresses up to a gap beyond the last one in use. An output
is the wallet's if the point under its one-time key is one of them.
-/
namespace Pricoin.StealthScan

open ByteStreams KeyImageFile Transactions Coins JointStealth

/-- The keys of the curve library. -/
structure KeyLibrary (π : Type) where
  getPubKey : Uint256 → π

structure PublicAddress (π : Type) where
  view : π
  spend : π
  deriving DecidableEq

structure Identity (π : Type) where
  view : Uint256
  spend : Uint256
  publicAddress : PublicAddress π
  deriving DecidableEq

def identityOf {π : Type} (L : KeyLibrary π) (view spend : Uint256) : Identity π :=
  { view, spend, publicAddress := { view := L.getPubKey view, spend := L.getPubKey spend } }

structure Subaddress where
  spendPub : Point
  spendPriv : Uint256

/-- The functions of the stealth, commitment and ring signature modules that scanning uses. -/
structure ScanLibrary where
  hash160 : Point → Bytes 20
  ecdhPoint : Uint256 → Point → Option Point
  deriveSharedSecret : Point → UInt32 → Uint256
  recoverSpendPointFromOneTime : Point → Uint256 → Option Point
  deriveRangeProofNonce : Point → UInt32 → Uint256
  rewindRangeProof : Commitment → List UInt8 → Script → Uint256 → Option (UInt64 × Uint256)
  deriveOneTimePriv : Uint256 → Uint256 → Option Uint256
  computeKeyImage : Point → Uint256 → Option Point
  deriveSubaddress : Uint256 → Uint256 → ℕ → Option Subaddress

/-- The index 0 stands for the identity itself. -/
structure SubaddressLookupEntry where
  index : ℕ
  spendPriv : Uint256

abbrev SubaddressLookup := Point → Option SubaddressLookupEntry

def kSubaddressGapLimit : ℕ := 100

variable (lib : ScanLibrary) (id : Identity Point)

/-- One turn of the loop of `BuildSubaddressLookup`. A point that is there is overwritten. -/
def addSubaddress (lookup : SubaddressLookup) (i : ℕ) : SubaddressLookup :=
  match lib.deriveSubaddress id.view id.spend i with
  | none => lookup
  | some sub => Function.update lookup sub.spendPub (some ⟨i, sub.spendPriv⟩)

/-- The spend points up to the gap beyond the last subaddress in use. -/
def buildSubaddressLookup (maxUsedIndex : ℕ) : SubaddressLookup :=
  let cap := min (maxUsedIndex + kSubaddressGapLimit) (2 ^ 32 - 1)
  (List.range' 1 cap).foldl (addSubaddress lib id)
    fun point => if point = id.publicAddress.spend then some ⟨0, id.spend⟩ else none

structure RecoveredOutput where
  outputIndex : UInt32
  value : Int64
  blind : Uint256
  commitment : Commitment
  scriptPubKey : Script
  oneTimePriv : Uint256
  keyImage : Point
  subaddressIndex : ℕ
  deriving DecidableEq

/-- The script that pays to the hash of a key. -/
def keyHashScript (pubkey : Point) : Script := [0x00, 0x14] ++ (lib.hash160 pubkey).toList

/-- What the wallet learns of an output that pays to it. -/
def tryRecoverCTOutput (lookup : SubaddressLookup) (tx : Transaction) (outputIndex : UInt32) :
    Option RecoveredOutput :=
  if tx.version ≠ pricoinCTVersion then none
  else do
    let out ← tx.ctBundle.outputs[outputIndex.toNat]?
    let txout ← tx.vout[outputIndex.toNat]?
    -- no stealth output
    if out.txPubkey.toList.all (· == 0) then none
    if !(CPubKey.ofBytes out.txPubkey.toList).isValid then none
    if !(CPubKey.ofBytes out.oneTimePubkey.toList).isValid then none
    if txout.scriptPubKey ≠ keyHashScript lib out.oneTimePubkey then none
    let S ← lib.ecdhPoint id.view out.txPubkey
    let shared := lib.deriveSharedSecret S outputIndex
    let candidate ← lib.recoverSpendPointFromOneTime out.oneTimePubkey shared
    let found ← lookup candidate
    let nonce := lib.deriveRangeProofNonce S outputIndex
    let (value, blind) ← lib.rewindRangeProof out.commitment out.rangeproof out.scriptPubkey nonce
    let oneTimePriv ← lib.deriveOneTimePriv shared found.spendPriv
    let keyImage ← lib.computeKeyImage out.oneTimePubkey oneTimePriv
    some
      { outputIndex
        value := value.toInt64
        blind
        commitment := out.commitment
        scriptPubKey := txout.scriptPubKey
        oneTimePriv
        keyImage
        subaddressIndex := found.index }

end Pricoin.StealthScan
