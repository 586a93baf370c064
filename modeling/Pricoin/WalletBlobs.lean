import Pricoin.KeyImageFile

/-!
Secrets of a wallet as versioned blobs. A blob is plain, or encrypted under the master
key of the wallet with a code over the ciphertext; an older form has no code. What a
blob opens to does not depend on whether the wallet is locked: a locked wallet refuses,
and no later state opens the blob to anything else.
-/
namespace Pricoin.WalletBlobs

open ByteStreams KeyImageFile List Option

/-- Encryption under a master key with an initial vector, and the keyed hash. -/
structure Cipher (μ : Type) where
  encryptSecret : μ → List UInt8 → Uint256 → Option (List UInt8)
  decryptSecret : μ → List UInt8 → Uint256 → Option (List UInt8)
  hmac : μ → List UInt8 → Bytes 32
  decrypt_encrypt : ∀ mk plain iv ciphertext, encryptSecret mk plain iv = some ciphertext →
    decryptSecret mk ciphertext iv = some plain
  ciphertext_ne_nil : ∀ mk plain iv ciphertext, encryptSecret mk plain iv = some ciphertext →
    ciphertext ≠ []

/-- The master key of a wallet: none, known only to the file, or in memory too. -/
inductive Keys (μ : Type) where
  | unencrypted
  | locked (mk : μ)
  | unlocked (mk : μ)
  deriving DecidableEq

variable {μ : Type}

namespace Keys

def master : Keys μ → Option μ
  | unencrypted => none
  | locked mk | unlocked mk => some mk

def hasEncryptionKeys (k : Keys μ) : Bool := k.master.isSome

def isLocked : Keys μ → Bool
  | locked _ => true
  | _ => false

/-- The key in memory, as `WithEncryptionKey` hands it out. -/
def current : Keys μ → Option μ
  | unlocked mk => some mk
  | _ => none

end Keys

def kVersionPlain : UInt8 := 0x00

def kVersionEncryptedNoMac : UInt8 := 0x01

def kVersionEncrypted : UInt8 := 0x02

abbrev kIVSize : ℕ := 32

abbrev kMacSize : ℕ := 32

def kMacTag : List UInt8 := ascii "pricoin/stealth/mac-v1"

def lockedMessage : String :=
  "Pricoin stealth keys are encrypted; unlock the wallet (`walletpassphrase`) before " ++
    "scanning or sending confidential transactions"

variable (C : Cipher μ)

def computeStealthFileMac (mk : μ) (ver : UInt8) (iv : Uint256) (ciphertext : List UInt8) :
    Bytes kMacSize :=
  C.hmac mk (kMacTag ++ [ver] ++ iv.toList ++ ciphertext)

/-- The part of `decodeBlob` that uses the key: the code at the end, if there is one, is
compared before anything is decrypted. -/
def openSealed (key : Option μ) (ver : UInt8) (hasMac : Bool) (body : List UInt8) :
    Option (List UInt8) := do
  let (iv, body) ← readBytes kIVSize body
  let ctEnd := body.length - if hasMac then kMacSize else 0
  let mk ← key
  if hasMac && (computeStealthFileMac C mk ver iv (body.take ctEnd)).toList != body.drop ctEnd then
    none
  else
    let decrypted ← C.decryptSecret mk (body.take ctEnd) iv
    if decrypted = [] then none else some decrypted

/-- The secret in a blob, and whether the blob is older than what would be written now. A
blob that does not decode gives nothing, and an encrypted one needs the wallet unlocked. -/
def decodeBlob (k : Keys μ) (buf : List UInt8) (acceptNoMac : Bool) :
    Except String (Option (List UInt8 × Bool)) :=
  match buf with
  | [] => .ok none
  | ver :: body =>
    if ver = kVersionPlain then
      if buf.length < 2 then .ok none
      else .ok (some (body, k.hasEncryptionKeys && !k.isLocked))
    else if ver = kVersionEncryptedNoMac ∧ acceptNoMac = false then .ok none
    else if ver ≠ kVersionEncryptedNoMac ∧ ver ≠ kVersionEncrypted then .ok none
    else
      let hasMac := ver == kVersionEncrypted
      let minSize := if hasMac then 1 + kIVSize + 1 + kMacSize else 1 + kIVSize + 1
      if buf.length < minSize then .ok none
      else if k.isLocked then .error lockedMessage
      else .ok ((openSealed C k.current ver hasMac body).map fun plain => (plain, !hasMac))

/-- The blob of a secret under a fresh vector. A locked wallet writes none. -/
def encodeBlob (k : Keys μ) (iv : Uint256) (plain : List UInt8) : Option (List UInt8) :=
  if plain = [] then none
  else if k.hasEncryptionKeys && k.isLocked then none
  else if k.hasEncryptionKeys && !k.isLocked then do
    let mk ← k.current
    let ciphertext ← C.encryptSecret mk plain iv
    let mac := computeStealthFileMac C mk kVersionEncrypted iv ciphertext
    some (kVersionEncrypted :: (iv.toList ++ ciphertext ++ mac.toList))
  else some (kVersionPlain :: plain)

variable {C}

theorem openSealed_sealed {mk : μ} {plain ciphertext : List UInt8} {iv : Uint256}
    (hplain : plain ≠ []) (henc : C.encryptSecret mk plain iv = some ciphertext) :
    openSealed C (some mk) kVersionEncrypted true (iv.toList ++ ciphertext ++
      (computeStealthFileMac C mk kVersionEncrypted iv ciphertext).toList) = some plain := by
  rw [append_assoc]
  simp [openSealed, readBytes_append, C.decrypt_encrypt _ _ _ _ henc, hplain]

/-- What is written can be read back. -/
theorem decodeBlob_encodeBlob {k : Keys μ} {iv : Uint256} {plain blob : List UInt8}
    (h : encodeBlob C k iv plain = some blob) (acceptNoMac : Bool) :
    ∃ needsUpgrade, decodeBlob C k blob acceptNoMac = .ok (some (plain, needsUpgrade)) := by
  unfold encodeBlob at h
  by_cases hplain : plain = []
  · simp [hplain] at h
  rw [if_neg hplain] at h
  have hlength : 0 < plain.length := length_pos_of_ne_nil hplain
  cases k with
  | unencrypted =>
    obtain rfl : kVersionPlain :: plain = blob := some.inj h
    refine ⟨false, ?_⟩
    have hsize : ¬ (kVersionPlain :: plain).length < 2 := by
      rw [length_cons]
      omega
    simp only [decodeBlob, if_true, if_neg hsize]
    rfl
  | locked mk => simp [Keys.hasEncryptionKeys, Keys.isLocked, Keys.master] at h
  | unlocked mk =>
    cases henc : C.encryptSecret mk plain iv with
    | none => simp [Keys.hasEncryptionKeys, Keys.isLocked, Keys.master, Keys.current, henc] at h
    | some ciphertext =>
      simp only [Keys.hasEncryptionKeys, Keys.isLocked, Keys.master, Keys.current, henc,
        isSome_some, Bool.and_false, Bool.false_eq_true, if_false, Bool.not_false,
        Bool.and_true, if_true, bind_eq_bind, bind_some, some.injEq] at h
      subst h
      refine ⟨false, ?_⟩
      have hct : 0 < ciphertext.length :=
        length_pos_of_ne_nil (C.ciphertext_ne_nil _ _ _ _ henc)
      have hsize : ¬ (kVersionEncrypted :: (iv.toList ++ ciphertext ++
          (computeStealthFileMac C mk kVersionEncrypted iv ciphertext).toList)).length <
            1 + kIVSize + 1 + kMacSize := by
        simp only [length_cons, length_append, List.Vector.toList_length, kIVSize,
          kMacSize]
        omega
      have hplainVersion : kVersionEncrypted ≠ kVersionPlain := by decide
      have hnoMac : kVersionEncrypted ≠ kVersionEncryptedNoMac := by decide
      simp only [decodeBlob, if_neg hplainVersion, hnoMac, false_and, if_false, ne_eq,
        not_true_eq_false, and_false, beq_self_eq_true, if_true, if_neg hsize, Keys.isLocked,
        Bool.false_eq_true, Keys.current, openSealed_sealed hplain henc, map_some,
        Bool.not_true]

end Pricoin.WalletBlobs
