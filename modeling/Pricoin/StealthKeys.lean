import Pricoin.RingSig
import Pricoin.StealthScan

/-!
The keys of stealth outputs. The sender and the receiver reach one point from opposite
sides, and its hash moves the spend key of the address to the one-time key. Subaddresses
move both keys of the identity by a hash of the view key and their index.
-/
namespace Pricoin.StealthKeys

open ByteStreams KeyImageFile Transactions CurveBytes CurveBytes.Secp256k1 RingSig Option
open JointStealth StealthScan

variable {F E : Type} [Field F] [AddCommGroup E] [Module F E] [DecidableEq F] [DecidableEq E]
  {out : Point} {viewPriv : Scalar}

/-- The library of the curve. The 33 bytes of a point are those of a compressed key. -/
structure StealthCurve (F E : Type) [Field F] [AddCommGroup E] [Module F E] extends
    Secp256k1 F E where
  compressed : ∀ b p, parsePoint b = some p → b.head = 2 ∨ b.head = 3

inductive AddressKind where
  | main
  | subaddress
  deriving DecidableEq

def secretTag : List UInt8 := ascii "pricoin/stealth/secret-v1"

def nonceTag : List UInt8 := ascii "pricoin/stealth/nonce-v1"

def kSubaddrTag : List UInt8 := ascii "pricoin/stealth/subaddr-v1"

/-- The check of a key of 33 bytes by its first byte. -/
def validKey (pub : Point) : Bool := (CPubKey.ofBytes pub.toList).isValid

def validAddress (a : PublicAddress Point) : Bool := validKey a.view && validKey a.spend

structure DerivedSubaddress where
  index : ℕ
  publicAddress : PublicAddress Point
  spendPriv : Scalar

section Code

variable (curve : StealthCurve F E)

def ecdhPoint (priv : Scalar) (pub : Point) : Option Point :=
  if !curve.seckeyVerify priv || !validKey pub then none else curve.scalarMultPoint priv pub

def computeStealthR (r : Scalar) (a : PublicAddress Point) (kind : AddressKind) : Option Point :=
  if !curve.seckeyVerify r || !validAddress a then none
  else match kind with
    | .main => curve.scalarMultG r
    | .subaddress => ecdhPoint curve r a.spend

def deriveSharedSecret (ecdh : Point) (outputIndex : UInt32) : Uint256 :=
  curve.sha256 (secretTag ++ ecdh.toList ++ leBytes 4 outputIndex.toNat)

def deriveOneTimePubkey (shared : Uint256) (spendPubkey : Point) : Option Point := do
  let sharedG ← curve.pubkeyCreate shared
  let spend ← curve.parsePoint spendPubkey
  let combined ← curve.pubkeyCombine [sharedG, spend]
  let result := curve.serializePoint combined
  if validKey result then some result else none

def recoverSpendPointFromOneTime (oneTimePubkey : Point) (shared : Uint256) : Option Point :=
  if !validKey oneTimePubkey then none
  else do
    let P ← curve.parsePoint oneTimePubkey
    let sharedG ← curve.pubkeyCreate shared
    let candidate ← curve.pubkeyCombine [P, -sharedG]
    some (curve.serializePoint candidate)

def deriveOneTimePriv (shared : Uint256) (spendPriv : Scalar) : Option Scalar :=
  if !curve.seckeyVerify spendPriv then none else curve.seckeyTweakAdd spendPriv shared

def deriveRangeProofNonce (ecdh : Point) (outputIndex : UInt32) : Uint256 :=
  curve.sha256 (nonceTag ++ ecdh.toList ++ leBytes 4 outputIndex.toNat)

/-- The hash of the view key and the index, behind a counter that makes it a valid key. -/
def deriveSubaddressOffset (viewPriv : Scalar) (index : ℕ) : Option Uint256 :=
  ((List.range 256).map fun ctr =>
    curve.sha256 (kSubaddrTag ++ viewPriv.toList ++ leBytes 4 index ++ [UInt8.ofNat ctr])).find?
      curve.seckeyVerify

/-- The keys `B_i = B + m·G` and `A_i = a·B_i`. -/
def deriveSubaddressPubFromOffset (m : Uint256) (viewPriv : Scalar) (spendPubkey : Point) :
    Option (PublicAddress Point) := do
  let B ← curve.parsePoint spendPubkey
  let tweak ← curve.parseScalar m
  let Bi ← curve.pubkeyCombine [B, tweak • curve.G]
  let Ai ← curve.pubkeyTweakMul Bi viewPriv
  let out : PublicAddress Point := ⟨curve.serializePoint Ai, curve.serializePoint Bi⟩
  if validAddress out then some out else none

/-- The index 0 stands for the identity itself. -/
def deriveSubaddress (viewPriv spendPriv : Scalar) (index : ℕ) : Option DerivedSubaddress :=
  if index = 0 then none
  else if !curve.seckeyVerify viewPriv || !curve.seckeyVerify spendPriv then none
  else do
    let m ← deriveSubaddressOffset curve viewPriv index
    let bi ← curve.seckeyTweakAdd spendPriv m
    let spendPubkey ← curve.scalarMultG spendPriv
    let publicAddress ← deriveSubaddressPubFromOffset curve m viewPriv spendPubkey
    if curve.scalarMultG bi = some publicAddress.spend then some ⟨index, publicAddress, bi⟩
    else none

end Code

section Keys

variable {curve : StealthCurve F E}

theorem toList_eq_cons (b : Point) : b.toList = b.head :: b.tail.toList := by
  rw [← List.Vector.toList_cons, List.Vector.cons_head_tail]

omit [DecidableEq F] [DecidableEq E] in
theorem validKey_of_parse {b : Point} {p : E} (h : curve.parsePoint b = some p) :
    validKey b = true := by
  have hsize : validSize b.toList = true := by
    rw [toList_eq_cons]
    have hhead : getLen b.head = 33 := if_pos (curve.compressed b p h)
    simp [validSize, hhead]
  rw [validKey, CPubKey.ofBytes, dif_pos hsize, CPubKey.isValid]
  simp

omit [DecidableEq F] in
/-- A sum of points is a valid key. -/
theorem validKey_serialize_combine {p q : E} :
    ((curve.pubkeyCombine [p, q]).bind fun sum =>
      if validKey (curve.serializePoint sum) then some (curve.serializePoint sum) else none) =
        some out ↔ curve.parsePoint out = some (p + q) := by
  rw [← pubkeyCombine_pair]
  unfold pubkeyCombine
  split
  · rfl
  · rename_i hne
    rw [bind_some, bind_some,
      if_pos (validKey_of_parse (curve.parse_serialize _ hne))]

omit [DecidableEq E] in
theorem ecdhPoint_eq (priv : Scalar) (pub : Point) :
    ecdhPoint curve priv pub = curve.scalarMultPoint priv pub := by
  unfold ecdhPoint
  split
  · rename_i hinvalid
    symm
    rw [eq_none_iff_forall_ne_some]
    intro out h
    obtain ⟨a, p, ha, hp, -⟩ := scalarMultPoint_eq_some.mp h
    have hpriv : curve.seckeyVerify priv = true := seckeyVerify_iff.mpr ⟨a, ha⟩
    simp [hpriv, validKey_of_parse hp] at hinvalid
  · rfl

theorem deriveOneTimePubkey_eq_some {shared : Uint256} {spendPubkey : Point} :
    deriveOneTimePubkey curve shared spendPubkey = some out ↔ ∃ h B,
      curve.seckey shared = some h ∧ curve.parsePoint spendPubkey = some B ∧
      curve.parsePoint out = some (h • curve.G + B) := by
  constructor
  · intro hout
    obtain ⟨_, hshared, hout⟩ := bind_eq_some_iff.mp hout
    obtain ⟨h, hh, rfl⟩ := map_eq_some_iff.mp hshared
    obtain ⟨B, hB, hout⟩ := bind_eq_some_iff.mp hout
    exact ⟨h, B, hh, hB, validKey_serialize_combine.mp hout⟩
  · rintro ⟨h, B, hh, hB, hout⟩
    have hshared : curve.pubkeyCreate shared = some (h • curve.G) := by rw [pubkeyCreate, hh]; rfl
    exact bind_eq_some_iff.mpr ⟨_, hshared, bind_eq_some_iff.mpr
      ⟨B, hB, validKey_serialize_combine.mpr hout⟩⟩

theorem recoverSpendPointFromOneTime_eq_some {oneTimePubkey : Point} {shared : Uint256} :
    recoverSpendPointFromOneTime curve oneTimePubkey shared = some out ↔ ∃ P h,
      curve.parsePoint oneTimePubkey = some P ∧ curve.seckey shared = some h ∧
      curve.parsePoint out = some (P - h • curve.G) := by
  unfold recoverSpendPointFromOneTime
  constructor
  · intro hout
    split at hout
    · contradiction
    · obtain ⟨P, hP, hout⟩ := bind_eq_some_iff.mp hout
      obtain ⟨_, hshared, hout⟩ := bind_eq_some_iff.mp hout
      obtain ⟨h, hh, rfl⟩ := map_eq_some_iff.mp hshared
      have hsum := pubkeyCombine_pair.mp hout
      exact ⟨P, h, hP, hh, by rwa [← sub_eq_add_neg] at hsum⟩
  · rintro ⟨P, h, hP, hh, hout⟩
    have hshared : curve.pubkeyCreate shared = some (h • curve.G) := by rw [pubkeyCreate, hh]; rfl
    rw [validKey_of_parse hP, if_neg (by decide)]
    rw [sub_eq_add_neg] at hout
    exact bind_eq_some_iff.mpr ⟨P, hP, bind_eq_some_iff.mpr
      ⟨_, hshared, pubkeyCombine_pair.mpr hout⟩⟩

omit [DecidableEq E] in
theorem deriveOneTimePriv_eq (shared : Uint256) (spendPriv : Scalar) :
    deriveOneTimePriv curve shared spendPriv = curve.seckeyTweakAdd spendPriv shared := by
  unfold deriveOneTimePriv
  split
  · rename_i hinvalid
    symm
    rw [eq_none_iff_forall_ne_some]
    intro out h
    obtain ⟨a, t, ha, -⟩ := seckeyTweakAdd_eq_some.mp h
    have hpriv : curve.seckeyVerify spendPriv = true := seckeyVerify_iff.mpr ⟨a, ha⟩
    simp [hpriv] at hinvalid
  · rfl

/-- The sender's point `R`, of which the receiver takes the multiple by the view key. -/
def basePoint (G : E) (B : E) : AddressKind → E
  | .main => G
  | .subaddress => B

omit [DecidableEq E] in
theorem parse_of_computeStealthR {r : Scalar} {a : PublicAddress Point} {kind : AddressKind}
    {R : Point} (hR : computeStealthR curve r a kind = some R) {B : E}
    (hB : curve.parsePoint a.spend = some B) : ∃ x, curve.seckey r = some x ∧
      curve.parsePoint R = some (x • basePoint curve.G B kind) := by
  unfold computeStealthR at hR
  split at hR
  · contradiction
  · cases kind with
    | main => exact scalarMultG_eq_some.mp hR
    | subaddress =>
      change ecdhPoint curve r a.spend = some R at hR
      rw [ecdhPoint_eq] at hR
      obtain ⟨x, p, hx, hp, hR⟩ := scalarMultPoint_eq_some.mp hR
      obtain rfl := some.inj (hp.symm.trans hB)
      exact ⟨x, hx, hR⟩

omit [DecidableEq E] in
theorem seckey_of_deriveSubaddressOffset {index : ℕ} {m : Uint256}
    (hm : deriveSubaddressOffset curve viewPriv index = some m) :
    (∃ t, curve.seckey m = some t) ∧ ∃ ctr < 256, m = curve.sha256
      (kSubaddrTag ++ viewPriv.toList ++ leBytes 4 index ++ [UInt8.ofNat ctr]) := by
  refine ⟨seckeyVerify_iff.mp (List.find?_some hm), ?_⟩
  obtain ⟨ctr, hctr, rfl⟩ := List.mem_map.mp (List.mem_of_find?_eq_some hm)
  exact ⟨ctr, List.mem_range.mp hctr, rfl⟩

theorem points_of_deriveSubaddressPub {m : Uint256} {spendPubkey : Point}
    {address : PublicAddress Point}
    (h : deriveSubaddressPubFromOffset curve m viewPriv spendPubkey = some address) :
    ∃ Bi a, curve.seckey viewPriv = some a ∧ curve.parsePoint address.spend = some Bi ∧
      curve.parsePoint address.view = some (a • Bi) := by
  obtain ⟨B, -, h⟩ := bind_eq_some_iff.mp h
  obtain ⟨tweak, -, h⟩ := bind_eq_some_iff.mp h
  obtain ⟨Bi, hBi, h⟩ := bind_eq_some_iff.mp h
  obtain ⟨_, hAi, h⟩ := bind_eq_some_iff.mp h
  obtain ⟨a, ha, rfl⟩ := map_eq_some_iff.mp hAi
  have hne : Bi ≠ 0 := by
    unfold pubkeyCombine at hBi
    split at hBi
    · contradiction
    · rwa [← some.inj hBi]
  dsimp only at h
  split at h
  · obtain rfl := some.inj h
    exact ⟨Bi, a, ha, curve.parse_serialize Bi hne,
      curve.parse_serialize _ (smul_ne_zero (seckey_ne_zero ha) hne)⟩
  · contradiction

/-- The keys of a subaddress: the spend key is moved by the offset, and the view key is the
multiple of the spend key. -/
theorem keys_of_deriveSubaddress {spendPriv : Scalar} {index : ℕ} {sub : DerivedSubaddress}
    (hsub : deriveSubaddress curve viewPriv spendPriv index = some sub) :
    sub.index = index ∧ index ≠ 0 ∧ ∃ a b m t, curve.seckey viewPriv = some a ∧
      curve.seckey spendPriv = some b ∧ deriveSubaddressOffset curve viewPriv index = some m ∧
      curve.seckey m = some t ∧ curve.seckey sub.spendPriv = some (b + t) ∧
      curve.parsePoint sub.publicAddress.spend = some ((b + t) • curve.G) ∧
      curve.parsePoint sub.publicAddress.view = some (a • (b + t) • curve.G) := by
  unfold deriveSubaddress at hsub
  split at hsub
  · contradiction
  rename_i hindex
  split at hsub
  · contradiction
  obtain ⟨m, hm, hsub⟩ := bind_eq_some_iff.mp hsub
  obtain ⟨bi, hbi, hsub⟩ := bind_eq_some_iff.mp hsub
  obtain ⟨spendPubkey, -, hsub⟩ := bind_eq_some_iff.mp hsub
  obtain ⟨address, haddress, hsub⟩ := bind_eq_some_iff.mp hsub
  split at hsub
  · rename_i hcheck
    obtain rfl := some.inj hsub
    obtain ⟨t, ht⟩ := (seckey_of_deriveSubaddressOffset hm).1
    obtain ⟨b, t', hb, ht', hkey⟩ := seckeyTweakAdd_eq_some.mp hbi
    obtain rfl := some.inj ((parseScalar_of_seckey ht).symm.trans ht')
    have hspend := (scalarMultG_iff hkey).mp hcheck
    obtain ⟨Bi, a, ha, hBi, hview⟩ := points_of_deriveSubaddressPub haddress
    obtain rfl := some.inj (hBi.symm.trans hspend)
    exact ⟨rfl, hindex, a, b, m, t, ha, hb, hm, ht, hkey, hspend, hview⟩
  · contradiction

end Keys

end Pricoin.StealthKeys
