import Pricoin.AdaptorSwaps
import Pricoin.Musig2Nonces
import Pricoin.OrderBook
import Pricoin.SubaddressStates
import Pricoin.SwapSessions

/-!
The records that a wallet keeps as blobs, and what their loaders take from a database that
anyone may have written to. A blob with a code opens only if the wallet sealed it, and gives
what was sealed. A blob in the plain form carries no code and opens in every wallet, whether
or not the wallet is encrypted.
-/
namespace Pricoin.SealedRecords

open ByteStreams Codecs Codec KeyImageFile RecordCodecs DurableRecords WalletBlobs List Option
open RecoveryIndex (Index emptyIndex deserializeRecoveryIndex)
open SubaddressStates (SubaddressState decodeStateBlob decodeLabelBlob loadState loadLabel)

variable {blob : List UInt8} {calls : List Call}

section Blobs

variable {μ : Type} (C : Cipher μ)

def encryptWalletBlob (k : Keys μ) (iv : Uint256) (plain : List UInt8) : Option (List UInt8) :=
  encodeBlob C k iv plain

/-- The blobs without a code that older wallets wrote are refused. -/
def decryptWalletBlob (k : Keys μ) (blob : List UInt8) : Except String (Option (List UInt8)) :=
  (decodeBlob C k blob false).map (Option.map Prod.fst)

/-- A call of `encryptWalletBlob` with the vector it has drawn. -/
structure Call where
  iv : Uint256
  plain : List UInt8
  deriving DecidableEq

/-- One of the calls has given the blob for the secret. -/
def Produced (mk : μ) (calls : List Call) (blob plain : List UInt8) : Prop :=
  ∃ call ∈ calls, call.plain = plain ∧
    encryptWalletBlob C (.unlocked mk) call.iv plain = some blob

def PlainForm (blob plain : List UInt8) : Prop := plain ≠ [] ∧ blob = kVersionPlain :: plain

/-- What the code of a blob is computed from. -/
def macMessage (ver : UInt8) (iv : Uint256) (ciphertext : List UInt8) : List UInt8 :=
  kMacTag ++ [ver] ++ iv.toList ++ ciphertext

/-- The calls have computed the code of the message. -/
def Authenticated (mk : μ) (calls : List Call) (message : List UInt8) : Prop :=
  ∃ call ∈ calls, call.plain ≠ [] ∧ ∃ ciphertext,
    C.encryptSecret mk call.plain call.iv = some ciphertext ∧
      message = macMessage kVersionEncrypted call.iv ciphertext

/-- Nobody has the code of a message under the key but from the calls. -/
def Unforged (mk : μ) (calls : List Call) (blob : List UInt8) : Prop :=
  ∀ ver iv ciphertext, blob = ver :: (iv.toList ++ ciphertext ++
      (computeStealthFileMac C mk ver iv ciphertext).toList) →
    Authenticated C mk calls (macMessage ver iv ciphertext)

variable {C}
variable {mk : μ}

theorem macMessage_inj {ver ver' : UInt8} {iv iv' : Uint256} {ciphertext ciphertext' : List UInt8}
    (h : macMessage ver iv ciphertext = macMessage ver' iv' ciphertext') :
    ver = ver' ∧ iv = iv' ∧ ciphertext = ciphertext' := by
  simp only [macMessage, append_assoc, singleton_append] at h
  obtain ⟨hver, hbody⟩ := cons.inj (append_cancel_left h)
  obtain ⟨hiv, hct⟩ := append_inj hbody (by simp)
  exact ⟨hver, List.Vector.toList_injective hiv, hct⟩

/-- The code is compared before anything is decrypted. -/
theorem openSealed_eq_some {ver : UInt8} {body plain : List UInt8}
    (h : openSealed C (some mk) ver true body = some plain) :
    ∃ iv ciphertext,
      body = iv.toList ++ ciphertext ++ (computeStealthFileMac C mk ver iv ciphertext).toList ∧
        C.decryptSecret mk ciphertext iv = some plain := by
  unfold openSealed at h
  obtain ⟨⟨iv, rest⟩, hread, h⟩ := bind_eq_some_iff.mp h
  simp only [if_true, bind_eq_bind, bind_some, Bool.true_and] at h
  obtain ⟨hmac, h⟩ := ite_none_left_eq_some.mp h
  obtain ⟨decrypted, hdecrypt, h⟩ := bind_eq_some_iff.mp h
  obtain ⟨-, hplain⟩ := ite_none_left_eq_some.mp h
  have hcode : (computeStealthFileMac C mk ver iv (rest.take (rest.length - kMacSize))).toList =
      rest.drop (rest.length - kMacSize) := by simpa using hmac
  refine ⟨iv, rest.take (rest.length - kMacSize), ?_, ?_⟩
  · rw [hcode, append_assoc, take_append_drop]
    exact eq_append_of_readBytes hread
  · rw [hdecrypt, some.inj hplain]

theorem sealed_ne_noMac : kVersionEncrypted ≠ kVersionEncryptedNoMac := by decide

/-- What opens in an unlocked wallet is in the plain form, or carries a code. -/
theorem of_decryptWalletBlob {plain : List UInt8}
    (h : decryptWalletBlob C (.unlocked mk) blob = .ok (some plain)) :
    PlainForm blob plain ∨ ∃ iv ciphertext,
      blob = kVersionEncrypted :: (iv.toList ++ ciphertext ++
        (computeStealthFileMac C mk kVersionEncrypted iv ciphertext).toList) ∧
      C.decryptSecret mk ciphertext iv = some plain := by
  cases blob with
  | nil => simp [decryptWalletBlob, decodeBlob, Except.map] at h
  | cons ver body =>
    by_cases hplain : ver = kVersionPlain
    · left
      by_cases hbody : body = []
      · simp [decryptWalletBlob, decodeBlob, hplain, hbody, Except.map] at h
      · obtain rfl : body = plain := by
          simpa [decryptWalletBlob, decodeBlob, hplain, hbody, Except.map] using h
        exact ⟨hbody, by rw [hplain]⟩
    by_cases hver : ver = kVersionEncrypted
    · right
      subst hver
      by_cases hsize : body.length + 1 < 1 + kIVSize + 1 + kMacSize
      · simp [decryptWalletBlob, decodeBlob, hplain, hsize, Except.map, sealed_ne_noMac] at h
      · have hopen : openSealed C (some mk) kVersionEncrypted true body = some plain := by
          simpa [decryptWalletBlob, decodeBlob, hplain, hsize, Except.map, sealed_ne_noMac,
            Keys.isLocked, Keys.current] using h
        obtain ⟨iv, ciphertext, hbody, hdecrypt⟩ := openSealed_eq_some hopen
        exact ⟨iv, ciphertext, by rw [hbody], hdecrypt⟩
    -- the form without a code, and the versions that do not exist
    · have hrefused : decodeBlob C (.unlocked mk) (ver :: body) false = .ok none := by
        by_cases hold : ver = kVersionEncryptedNoMac
        · simp only [decodeBlob, if_neg hplain, and_true, if_pos hold]
        · have hother : ver ≠ kVersionEncryptedNoMac ∧ ver ≠ kVersionEncrypted := ⟨hold, hver⟩
          simp only [decodeBlob, if_neg hplain, and_true, if_neg hold, if_pos hother]
      simp [decryptWalletBlob, hrefused, Except.map] at h

theorem decryptWalletBlob_of_produced {plain : List UInt8} (h : Produced C mk calls blob plain) :
    decryptWalletBlob C (.unlocked mk) blob = .ok (some plain) := by
  obtain ⟨call, -, -, hblob⟩ := h
  obtain ⟨needsUpgrade, hdecode⟩ := decodeBlob_encodeBlob hblob false
  simp [decryptWalletBlob, hdecode, Except.map]

theorem decryptWalletBlob_of_plainForm {plain : List UInt8} (h : PlainForm blob plain) :
    decryptWalletBlob C (.unlocked mk) blob = .ok (some plain) := by
  obtain ⟨hne, rfl⟩ := h
  have hlength : ¬ (kVersionPlain :: plain).length < 2 := by
    have hpos := length_pos_of_ne_nil hne
    rw [length_cons]
    omega
  simp only [decryptWalletBlob, decodeBlob, if_true, if_neg hlength]
  rfl

theorem encryptWalletBlob_eq_some {iv : Uint256} {plain : List UInt8}
    (h : encryptWalletBlob C (.unlocked mk) iv plain = some blob) :
    plain ≠ [] ∧ ∃ ciphertext, C.encryptSecret mk plain iv = some ciphertext ∧
      blob = kVersionEncrypted :: (iv.toList ++ ciphertext ++
        (computeStealthFileMac C mk kVersionEncrypted iv ciphertext).toList) := by
  unfold encryptWalletBlob encodeBlob at h
  obtain ⟨hne, h⟩ := ite_none_left_eq_some.mp h
  simp only [Keys.hasEncryptionKeys, Keys.isLocked, Keys.master, Keys.current, isSome_some,
    Bool.and_false, Bool.false_eq_true, if_false, Bool.not_false, Bool.and_true, if_true,
    bind_eq_bind, bind_some] at h
  obtain ⟨ciphertext, henc, h⟩ := bind_eq_some_iff.mp h
  exact ⟨hne, ciphertext, henc, (some.inj h).symm⟩

/-- Among the blobs that nobody has forged, those that open are the ones that the wallet has
sealed and the plain ones. -/
theorem decryptWalletBlob_iff (hblob : Unforged C mk calls blob) (plain : List UInt8) :
    decryptWalletBlob C (.unlocked mk) blob = .ok (some plain) ↔
      Produced C mk calls blob plain ∨ PlainForm blob plain := by
  constructor
  · intro h
    obtain hplain | ⟨iv, ciphertext, rfl, hdecrypt⟩ := of_decryptWalletBlob h
    · exact .inr hplain
    · obtain ⟨call, hcall, hne, sealed, hsealed, hmessage⟩ := hblob _ iv ciphertext rfl
      obtain ⟨-, rfl, rfl⟩ := macMessage_inj hmessage
      obtain rfl : call.plain = plain := by
        rw [C.decrypt_encrypt _ _ _ _ hsealed] at hdecrypt
        exact some.inj hdecrypt
      refine .inl ⟨call, hcall, rfl, ?_⟩
      simp [encryptWalletBlob, encodeBlob, hne, Keys.hasEncryptionKeys, Keys.isLocked,
        Keys.master, Keys.current, hsealed]
  · rintro (h | h)
    · exact decryptWalletBlob_of_produced h
    · exact decryptWalletBlob_of_plainForm h

end Blobs

section Tables

/-- How the records of a table are read. The loader may skip the rows that it cannot read, and may
fill fields of the records that it reads. -/
structure Table (ρ : Type) where
  read : List UInt8 → Option ρ
  digest : ρ → Uint256
  lenient : Bool
  onLoad : ρ → ρ

abbrev Rows := List (Uint256 × List UInt8)

variable {μ ρ : Type} (C : Cipher μ)

/-- Fill the cache row by row, up to one that stops the loader. -/
def loadRecords (k : Keys μ) (t : Table ρ) :
    List (Uint256 × ρ) → Rows → Except String (Bool × List (Uint256 × ρ))
  | cache, [] => .ok (true, cache)
  | cache, (digest, blob) :: rows =>
    match decryptWalletBlob C k blob with
    | .error e => .error e
    | .ok none => .ok (false, cache)
    | .ok (some plain) =>
      match t.read plain with
      | none => if t.lenient then loadRecords k t cache rows else .ok (false, cache)
      | some record =>
        if t.digest record ≠ digest then
          if t.lenient then loadRecords k t cache rows else .ok (false, cache)
        else loadRecords k t (cache ++ [(digest, t.onLoad record)]) rows

/-- A row of more than the largest size stops the reading of the table. -/
def loadFromDBLocked (k : Keys μ) (t : Table ρ) (rows : Rows) :
    Except String (Bool × List (Uint256 × ρ)) :=
  if rows.any fun row => maxSize < row.2.length then
    .error "ReadCompactSize(): size too large"
  else loadRecords C k t [] rows

variable {C}

/-- The entry was read from one of the rows. -/
def ReadFrom (C : Cipher μ) (k : Keys μ) (t : Table ρ) (rows : Rows) (entry : Uint256 × ρ) :
    Prop :=
  ∃ blob plain record, (entry.1, blob) ∈ rows ∧ decryptWalletBlob C k blob = .ok (some plain) ∧
    t.read plain = some record ∧ entry.2 = t.onLoad record

/-- The entries were in the cache before or are from the rows, and a load that succeeds has
opened every row. -/
structure Accounted (C : Cipher μ) (k : Keys μ) (t : Table ρ) (rows : Rows)
    (before cache : List (Uint256 × ρ)) (ok : Bool) : Prop where
  entries : ∀ entry ∈ cache, entry ∈ before ∨ ReadFrom C k t rows entry
  opened : ok = true → ∀ row ∈ rows, ∃ plain, decryptWalletBlob C k row.2 = .ok (some plain)

theorem Accounted.cons {k : Keys μ} {t : Table ρ} {rows : Rows} {before cache : List (Uint256 × ρ)}
    {ok : Bool} {row : Uint256 × List UInt8} {plain : List UInt8}
    (hdecrypt : decryptWalletBlob C k row.2 = .ok (some plain))
    (h : Accounted C k t rows before cache ok) : Accounted C k t (row :: rows) before cache ok where
  entries entry hentry := by
    refine (h.entries entry hentry).imp_right ?_
    rintro ⟨blob, plain, record, hmem, hread⟩
    exact ⟨blob, plain, record, mem_cons_of_mem _ hmem, hread⟩
  opened hok r hr := by
    obtain rfl | hr := mem_cons.mp hr
    · exact ⟨plain, hdecrypt⟩
    · exact h.opened hok r hr

theorem of_loadRecords {k : Keys μ} {t : Table ρ} {rows : Rows} {before cache : List (Uint256 × ρ)}
    {ok : Bool} (h : loadRecords C k t before rows = .ok (ok, cache)) :
    Accounted C k t rows before cache ok := by
  induction rows generalizing before with
  | nil =>
    simp only [loadRecords, Except.ok.injEq, Prod.mk.injEq] at h
    obtain ⟨-, rfl⟩ := h
    exact ⟨fun entry hentry => .inl hentry, fun _ row hrow => absurd hrow not_mem_nil⟩
  | cons row rows ih =>
    obtain ⟨digest, blob⟩ := row
    have hstopped (h : (.ok (false, before) : Except String _) = .ok (ok, cache)) :
        Accounted C k t ((digest, blob) :: rows) before cache ok := by
      cases h
      exact ⟨fun entry hentry => .inl hentry, fun hok => absurd hok Bool.false_ne_true⟩
    unfold loadRecords at h
    cases hdecrypt : decryptWalletBlob C k blob with
    | error e => simp [hdecrypt] at h
    | ok opened =>
      cases opened with
      | none =>
        simp only [hdecrypt] at h
        exact hstopped h
      | some plain =>
        simp only [hdecrypt] at h
        cases hread : t.read plain with
        | none =>
          simp only [hread] at h
          split at h
          · exact (ih h).cons hdecrypt
          · exact hstopped h
        | some record =>
          simp only [hread] at h
          split at h
          · split at h
            · exact (ih h).cons hdecrypt
            · exact hstopped h
          · have hlater : Accounted C k t ((digest, blob) :: rows)
                (before ++ [(digest, t.onLoad record)]) cache ok := (ih h).cons hdecrypt
            obtain ⟨hentries, hopened⟩ := hlater
            refine ⟨fun entry hentry => ?_, hopened⟩
            obtain hmem | hfrom := hentries entry hentry
            · obtain hmem | hmem := mem_append.mp hmem
              · exact .inl hmem
              · obtain rfl := mem_singleton.mp hmem
                exact .inr ⟨blob, plain, record, mem_cons_self, hdecrypt, hread, rfl⟩
            · exact .inr hfrom

/-- The records that are read with a codec, whatever follows them. -/
def Table.ofCodec (c : Codec ρ) (digest : ρ → Uint256) (lenient : Bool) : Table ρ :=
  ⟨fun plain => (c.read plain).map Prod.fst, digest, lenient, id⟩

variable (sha256 : List UInt8 → Uint256)

def clsagNonces : Table ClsagNonces.NonceRecord :=
  .ofCodec ClsagNonces.recordCodec (fun r => ClsagNonces.recordDigest sha256 r.key) false

def musig2Nonces : Table Musig2Nonces.NonceRecord :=
  .ofCodec Musig2Nonces.recordCodec (fun r => Musig2Nonces.recordDigest sha256 r.key) true

def swapSessions : Table SwapSessions.SwapSession :=
  .ofCodec SwapSessions.sessionCodec SwapSessions.SwapSession.sessionId false

def adaptorSwaps (decodeTx : AdaptorSwaps.Text → Option Uint256) :
    Table AdaptorSwaps.AdaptorSwap :=
  { Table.ofCodec AdaptorSwaps.swapCodec AdaptorSwaps.AdaptorSwap.swapId true with
    onLoad := AdaptorSwaps.backFill decodeTx }

def offers : Table OrderBook.Order := ⟨OrderBook.readOrder, fun o => o.payload.orderId, true, id⟩

structure ForeignLeg where
  chain : List UInt8
  htlcAddress : List UInt8
  redeemScript : List UInt8
  amountSat : Int64
  timeout : Int64

structure PricLeg where
  jointStealthAddress : List UInt8
  ourXShare : List UInt8
  amountSat : Int64

/-- A ceremony as it is stored, with the role and the state as their bytes. -/
structure SwapCeremony where
  ceremonyId : Uint256
  role : UInt8
  state : UInt8
  counterpartyPub : Bytes 33
  foreign : ForeignLeg
  pric : PricLeg
  preimageHash : List UInt8
  preimage : List UInt8
  foreignFundingTxid : List UInt8
  foreignFundingVout : Int32
  foreignClaimTxid : List UInt8
  pricFundingTxid : Uint256
  pricFundingVout : Int32
  pricReleaseTxid : Uint256
  memo : List UInt8
  createdTime : Int64
  updatedTime : Int64
  abortReason : List UInt8

def foreignLegCodec : Codec ForeignLeg :=
  (bytes.pair (bytes.pair (bytes.pair (sint64.pair sint64)))).via
    (fun l => (l.chain, l.htlcAddress, l.redeemScript, l.amountSat, l.timeout))
    (fun x => ⟨x.1, x.2.1, x.2.2.1, x.2.2.2.1, x.2.2.2.2⟩)

def pricLegCodec : Codec PricLeg :=
  (bytes.pair (bytes.pair sint64)).via
    (fun l => (l.jointStealthAddress, l.ourXShare, l.amountSat)) (fun x => ⟨x.1, x.2.1, x.2.2⟩)

def ceremonyCodec : Codec SwapCeremony :=
  ((block 32).pair (byte.pair (byte.pair ((block 33).pair (foreignLegCodec.pair
    (pricLegCodec.pair (bytes.pair (bytes.pair (bytes.pair (sint32.pair (bytes.pair
      ((block 32).pair (sint32.pair ((block 32).pair (bytes.pair (sint64.pair
        (sint64.pair bytes))))))))))))))))).via
    (fun c => (c.ceremonyId, c.role, c.state, c.counterpartyPub, c.foreign, c.pric,
      c.preimageHash, c.preimage, c.foreignFundingTxid, c.foreignFundingVout,
      c.foreignClaimTxid, c.pricFundingTxid, c.pricFundingVout, c.pricReleaseTxid, c.memo,
      c.createdTime, c.updatedTime, c.abortReason))
    (fun (ceremonyId, role, state, counterpartyPub, foreign, pric, preimageHash, preimage,
        foreignFundingTxid, foreignFundingVout, foreignClaimTxid, pricFundingTxid,
        pricFundingVout, pricReleaseTxid, memo, createdTime, updatedTime, abortReason) =>
      ⟨ceremonyId, role, state, counterpartyPub, foreign, pric, preimageHash, preimage,
        foreignFundingTxid, foreignFundingVout, foreignClaimTxid, pricFundingTxid,
        pricFundingVout, pricReleaseTxid, memo, createdTime, updatedTime, abortReason⟩)

def swapCeremonies : Table SwapCeremony :=
  .ofCodec ceremonyCodec SwapCeremony.ceremonyId false

/-- An entry of the chain watcher as it is stored, with the kind as its byte. -/
structure WatchRecord where
  swapId : Uint256
  kind : UInt8
  txidHex : List UInt8
  vout : Int32
  minConfirmations : Int32
  addedUnix : Int64

def watchCodec : Codec WatchRecord :=
  ((block 32).pair (byte.pair (bytes.pair (sint32.pair (sint32.pair sint64))))).via
    (fun e => (e.swapId, e.kind, e.txidHex, e.vout, e.minConfirmations, e.addedUnix))
    (fun x => ⟨x.1, x.2.1, x.2.2.1, x.2.2.2.1, x.2.2.2.2.1, x.2.2.2.2.2⟩)

def watchTag : List UInt8 := ascii "pricoin/chainwatch/key-v1"

def chainWatches : Table WatchRecord :=
  .ofCodec watchCodec (fun e => sha256 (watchTag ++ e.swapId.toList ++ [e.kind])) false

end Tables

section Loaders

/-- The tables of records that are sealed one by one. -/
inductive Kind where
  | clsagNonce
  | musig2Nonce
  | swapSession
  | swapCeremony
  | adaptorSwap
  | chainWatch
  | offer

def Kind.Record : Kind → Type
  | .clsagNonce => ClsagNonces.NonceRecord
  | .musig2Nonce => Musig2Nonces.NonceRecord
  | .swapSession => SwapSessions.SwapSession
  | .swapCeremony => SwapCeremony
  | .adaptorSwap => AdaptorSwaps.AdaptorSwap
  | .chainWatch => WatchRecord
  | .offer => OrderBook.Order

/-- The hash, and the transactions in the funding plans, which are parsed elsewhere. -/
structure Library where
  sha256 : List UInt8 → Uint256
  decodeTx : AdaptorSwaps.Text → Option Uint256

def Kind.table (lib : Library) : (kind : Kind) → Table kind.Record
  | .clsagNonce => clsagNonces lib.sha256
  | .musig2Nonce => musig2Nonces lib.sha256
  | .swapSession => swapSessions
  | .swapCeremony => swapCeremonies
  | .adaptorSwap => adaptorSwaps lib.decodeTx
  | .chainWatch => chainWatches lib.sha256
  | .offer => offers

/-- The sealed records of a wallet. -/
structure Database where
  tables : Kind → Rows
  subaddresses : SubaddressStates.Rows
  recoveryCache : Option (List UInt8)

inductive Database.Has (db : Database) : List UInt8 → Prop
  | row {kind : Kind} {digest : Uint256} {blob : List UInt8}
      (h : (digest, blob) ∈ db.tables kind) : Has db blob
  | state {blob : List UInt8} (h : db.subaddresses.state = some blob) : Has db blob
  | label {index : UInt32} {blob : List UInt8} (h : (index, blob) ∈ db.subaddresses.labels) :
      Has db blob
  | cache {blob : List UInt8} (h : db.recoveryCache = some blob) : Has db blob

variable {μ : Type} (C : Cipher μ) (mk : μ)

/-- What opens rows in an unlocked wallet. It seals nothing. -/
def opener : Sealing Empty where
  encrypt := nofun
  decrypt blob := (decryptWalletBlob C (.unlocked mk) blob).toOption.join
  decrypt_encrypt := nofun
  length_le := nofun

/-- The index that a first call starts from. A row above the size limit is not read, and whether
the payload was good is not looked at. -/
def loadPersistedRecoveryIndex (k : Keys μ) : Option (List UInt8) → Index
  | none => emptyIndex
  | some blob =>
    if blob = [] ∨ maxSize < blob.length then emptyIndex
    else match decryptWalletBlob C k blob with
      | .ok (some payload) => (deserializeRecoveryIndex payload).2
      | _ => emptyIndex

variable {C mk}

theorem opener_eq_some {plain : List UInt8} :
    (opener C mk).decrypt blob = some plain ↔
      decryptWalletBlob C (.unlocked mk) blob = .ok (some plain) := by
  simp only [opener]
  cases decryptWalletBlob C (.unlocked mk) blob with
  | error e => simp [Except.toOption]
  | ok opened => simp [Except.toOption]

/-- Where the labels and the last index of a state come from. -/
structure StateSources (C : Cipher μ) (mk : μ) (rows : SubaddressStates.Rows)
    (st : SubaddressState) : Prop where
  label : ∀ index label, st.labels index = some label → ∃ blob plain,
    (index, blob) ∈ rows.labels ∧ decryptWalletBlob C (.unlocked mk) blob = .ok (some plain) ∧
      decodeLabelBlob plain = some label
  maxUsedIndex : st.maxUsedIndex = 0 ∨ (st.labels st.maxUsedIndex).isSome ∨ ∃ blob plain,
    rows.state = some blob ∧ decryptWalletBlob C (.unlocked mk) blob = .ok (some plain) ∧
      decodeStateBlob plain = some st.maxUsedIndex

theorem stateSources_loadState (rows : SubaddressStates.Rows) :
    StateSources C mk rows (loadState (opener C mk) rows.state) where
  label := nofun
  maxUsedIndex := by
    cases hplain : rows.state.bind (opener C mk).decrypt with
    | none => exact .inl (by simp [loadState, hplain])
    | some plain =>
      cases hindex : decodeStateBlob plain with
      | none => exact .inl (by simp [loadState, hplain, hindex])
      | some index =>
        obtain ⟨blob, hblob, hdecrypt⟩ := bind_eq_some_iff.mp hplain
        refine .inr (.inr ⟨blob, plain, hblob, opener_eq_some.mp hdecrypt, ?_⟩)
        simp [loadState, hplain, hindex]

theorem StateSources.loadLabel {rows : SubaddressStates.Rows} {st : SubaddressState}
    (h : StateSources C mk rows st) {row : UInt32 × List UInt8} (hrow : row ∈ rows.labels) :
    StateSources C mk rows (loadLabel (opener C mk) st row) := by
  unfold SubaddressStates.loadLabel
  cases hlabel : ((opener C mk).decrypt row.2).bind decodeLabelBlob with
  | none => exact h
  | some label =>
    obtain ⟨plain, hdecrypt, hdecode⟩ := bind_eq_some_iff.mp hlabel
    constructor
    · intro index found hfound
      by_cases hindex : index = row.1
      · subst hindex
        obtain rfl : label = found := by simpa using hfound
        exact ⟨row.2, plain, hrow, opener_eq_some.mp hdecrypt, hdecode⟩
      · have hkept : st.labels index = some found := by
          simpa [Function.update_of_ne hindex] using hfound
        exact h.label index found hkept
    · dsimp only
      by_cases hraise : row.1 > st.maxUsedIndex
      · simp [hraise]
      · simp only [if_neg hraise]
        refine h.maxUsedIndex.imp_right (Or.imp_left fun hlabeled => ?_)
        by_cases hindex : st.maxUsedIndex = row.1
        · simp [hindex]
        · rwa [Function.update_of_ne hindex]

theorem of_loadFromDb {env : SubaddressStates.Env Empty} {rows : SubaddressStates.Rows}
    {st : SubaddressState} (h : SubaddressStates.loadFromDb (opener C mk) env rows = some st) :
    StateSources C mk rows st := by
  unfold SubaddressStates.loadFromDb at h
  obtain ⟨-, h⟩ := ite_none_left_eq_some.mp h
  obtain rfl := some.inj h
  -- each label is from a row that was read
  exact List.foldlRecOn rows.labels (loadLabel (opener C mk)) (stateSources_loadState rows)
    fun st hst row hrow => hst.loadLabel hrow

theorem of_loadPersistedRecoveryIndex {k : Keys μ} {cache : Option (List UInt8)}
    (h : loadPersistedRecoveryIndex C k cache ≠ emptyIndex) :
    ∃ blob payload, cache = some blob ∧ decryptWalletBlob C k blob = .ok (some payload) ∧
      loadPersistedRecoveryIndex C k cache = (deserializeRecoveryIndex payload).2 := by
  cases cache with
  | none => exact absurd rfl h
  | some blob =>
    unfold loadPersistedRecoveryIndex at h ⊢
    by_cases hnil : blob = [] ∨ maxSize < blob.length
    · simp [hnil] at h
    · cases hdecrypt : decryptWalletBlob C k blob with
      | error e => simp [hnil, hdecrypt] at h
      | ok opened =>
        cases opened with
        | none => simp [hnil, hdecrypt] at h
        | some payload => exact ⟨blob, payload, rfl, hdecrypt, by simp [hnil, hdecrypt]⟩

variable (C mk)

/-- The wallet has sealed the secret as the blob, or the blob is its plain form. -/
def Genuine (calls : List Call) (blob plain : List UInt8) : Prop :=
  Produced C mk calls blob plain ∨ PlainForm blob plain

/-- In an encrypted and unlocked wallet whose database anyone may have written to: a blob opens
exactly if it was sealed under the master key or is in the plain form, and to the secret it was
made of. A table that loads has no other rows, and whatever a loader puts in memory is of such
a blob. -/
theorem opened_genuine (lib : Library) (calls : List Call) (db : Database)
    (hmac : ∀ blob, db.Has blob → Unforged C mk calls blob) :
    (∀ blob, db.Has blob → ∀ plain,
      decryptWalletBlob C (.unlocked mk) blob = .ok (some plain) ↔ Genuine C mk calls blob plain) ∧
    (∀ kind ok cache,
      loadFromDBLocked C (.unlocked mk) (Kind.table lib kind) (db.tables kind) = .ok (ok, cache) →
        (∀ entry ∈ cache, ∃ blob plain record, (entry.1, blob) ∈ db.tables kind ∧
          Genuine C mk calls blob plain ∧ (Kind.table lib kind).read plain = some record ∧
            entry.2 = (Kind.table lib kind).onLoad record) ∧
        (ok = true → ∀ row ∈ db.tables kind, ∃ plain, Genuine C mk calls row.2 plain)) ∧
    (∀ env st, SubaddressStates.loadFromDb (opener C mk) env db.subaddresses = some st →
      (∀ index label, st.labels index = some label → ∃ blob plain,
        (index, blob) ∈ db.subaddresses.labels ∧ Genuine C mk calls blob plain ∧
          decodeLabelBlob plain = some label) ∧
      (st.maxUsedIndex = 0 ∨ (st.labels st.maxUsedIndex).isSome ∨ ∃ blob plain,
        db.subaddresses.state = some blob ∧ Genuine C mk calls blob plain ∧
          decodeStateBlob plain = some st.maxUsedIndex)) ∧
    (loadPersistedRecoveryIndex C (.unlocked mk) db.recoveryCache ≠ emptyIndex →
      ∃ blob plain, db.recoveryCache = some blob ∧ Genuine C mk calls blob plain ∧
        loadPersistedRecoveryIndex C (.unlocked mk) db.recoveryCache =
          (deserializeRecoveryIndex plain).2) := by
  have hopens (blob) (hblob : db.Has blob) (plain) :
      decryptWalletBlob C (.unlocked mk) blob = .ok (some plain) ↔ Genuine C mk calls blob plain :=
    decryptWalletBlob_iff (hmac blob hblob) plain
  refine ⟨hopens, fun kind ok cache hload => ?_, fun env st hload => ?_, fun hcache => ?_⟩
  · unfold loadFromDBLocked at hload
    split at hload
    · cases hload
    · obtain ⟨hentries, hrows⟩ := of_loadRecords hload
      refine ⟨fun entry hentry => ?_, fun hok row hrow => ?_⟩
      · obtain hnone | ⟨blob, plain, record, hmem, hdecrypt, hread⟩ := hentries entry hentry
        · exact absurd hnone not_mem_nil
        · exact ⟨blob, plain, record, hmem, (hopens blob (.row hmem) plain).mp hdecrypt, hread⟩
      · obtain ⟨plain, hdecrypt⟩ := hrows hok row hrow
        exact ⟨plain, (hopens row.2 (.row hrow) plain).mp hdecrypt⟩
  · obtain ⟨hlabel, hindex⟩ := of_loadFromDb hload
    constructor
    · intro index label hfound
      obtain ⟨blob, plain, hmem, hdecrypt, hdecode⟩ := hlabel index label hfound
      exact ⟨blob, plain, hmem, (hopens blob (.label hmem) plain).mp hdecrypt, hdecode⟩
    · refine hindex.imp_right (Or.imp_right ?_)
      intro ⟨blob, plain, hblob, hdecrypt, hdecode⟩
      exact ⟨blob, plain, hblob, (hopens blob (.state hblob) plain).mp hdecrypt, hdecode⟩
  · obtain ⟨blob, payload, hblob, hdecrypt, hindex⟩ := of_loadPersistedRecoveryIndex hcache
    exact ⟨blob, payload, hblob, (hopens blob (.cache hblob) payload).mp hdecrypt, hindex⟩

end Loaders

section Samples

theorem unforged_of_produced {μ : Type} {C : Cipher μ} {mk : μ} {plain : List UInt8}
    (h : Produced C mk calls blob plain) : Unforged C mk calls blob := by
  obtain ⟨call, hcall, rfl, hblob⟩ := h
  obtain ⟨hne, ciphertext, henc, rfl⟩ := encryptWalletBlob_eq_some hblob
  intro ver iv ciphertext' heq
  obtain ⟨rfl, hbody⟩ := cons.inj heq
  rw [append_assoc, append_assoc] at hbody
  obtain ⟨hiv, hrest⟩ := append_inj hbody (by simp)
  obtain ⟨rfl, -⟩ := append_inj' hrest (by simp)
  obtain rfl := List.Vector.toList_injective hiv
  exact ⟨call, hcall, hne, ciphertext, henc, rfl⟩

/-- A blob of this length has no room for a code. -/
theorem unforged_of_length {μ : Type} {C : Cipher μ} {mk : μ}
    (h : blob.length ≤ kIVSize + kMacSize) : Unforged C mk calls blob := by
  intro ver iv ciphertext hblob
  rw [hblob] at h
  simp only [length_cons, length_append, List.Vector.toList_length, kIVSize,
    kMacSize] at h
  omega

def sampleCipher : Cipher Unit where
  encryptSecret _ plain _ := some (1 :: plain)
  decryptSecret _ ciphertext _ := ciphertext.tail?
  hmac _ _ := .replicate 32 0
  decrypt_encrypt _ _ _ _ h := by
    obtain rfl := some.inj h
    rfl
  ciphertext_ne_nil _ _ _ _ h := by
    obtain rfl := some.inj h
    exact cons_ne_nil _ _

/-- A last index of 99, in the plain form. -/
def planted : List UInt8 := [0x00, 0x01, 99, 0, 0, 0]

def plantedDatabase : Database := ⟨fun _ => [], ⟨some planted, []⟩, none⟩

def opening : SubaddressStates.Env Empty where
  opens := true
  seed := none
  identity := true
  readable _ := true
  stateWrites _ := true
  labelWrites := true
  cacheWrites := true

/-- The wallet is encrypted and has sealed nothing, and takes the last index from the database. -/
theorem plain_blob_accepted :
    (∀ blob, plantedDatabase.Has blob → Unforged sampleCipher () [] blob) ∧
      (¬ ∃ plain, Produced sampleCipher () [] planted plain) ∧
      decryptWalletBlob sampleCipher (.unlocked ()) planted = .ok (some [0x01, 99, 0, 0, 0]) ∧
      (SubaddressStates.loadFromDb (opener sampleCipher ()) opening
        plantedDatabase.subaddresses).map SubaddressState.maxUsedIndex = some 99 := by
  refine ⟨fun blob hblob => ?_, ?_, rfl, rfl⟩
  · obtain h | h | h | h := hblob
    · cases h
    · obtain rfl := some.inj h
      exact unforged_of_length (by decide)
    · cases h
    · cases h
  · intro ⟨plain, call, hcall, _⟩
    cases hcall

/-- A wallet that has sealed an entry of the chain watcher, a last index of 5 and an index of
recoveries at height 7. -/
def sampleCalls : List Call :=
  [⟨nullHash, List.replicate 50 0⟩, ⟨nullHash, [0x01, 5, 0, 0, 0]⟩,
    ⟨nullHash, [0x02, 7, 0, 0, 0] ++ List.replicate 33 0⟩]

def sampleBlob (call : Call) : List UInt8 :=
  kVersionEncrypted :: (call.iv.toList ++ (1 :: call.plain) ++ List.replicate 32 0)

def sealedDatabase : Database where
  tables
    | .chainWatch => [(nullHash, sampleBlob ⟨nullHash, List.replicate 50 0⟩)]
    | _ => []
  subaddresses := ⟨some (sampleBlob ⟨nullHash, [0x01, 5, 0, 0, 0]⟩), []⟩
  recoveryCache := some (sampleBlob ⟨nullHash, [0x02, 7, 0, 0, 0] ++ List.replicate 33 0⟩)

def sampleLibrary : Library := ⟨fun _ => nullHash, fun _ => none⟩

theorem unforged_sealedDatabase (blob : List UInt8) (h : sealedDatabase.Has blob) :
    Unforged sampleCipher () sampleCalls blob := by
  have hproduced (call : Call) (hcall : call ∈ sampleCalls) (hne : call.plain ≠ []) :
      Unforged sampleCipher () sampleCalls (sampleBlob call) := by
    refine unforged_of_produced ⟨call, hcall, rfl, ?_⟩
    simp only [encryptWalletBlob, encodeBlob, if_neg hne]
    rfl
  obtain @⟨kind, digest, _, h⟩ | h | h | h := h
  · cases kind with
    | chainWatch =>
      obtain ⟨-, rfl⟩ := Prod.mk.inj (mem_singleton.mp h)
      exact hproduced _ mem_cons_self (by decide)
    | _ => cases h
  · obtain rfl := some.inj h
    exact hproduced _ (by decide) (by decide)
  · cases h
  · obtain rfl := some.inj h
    exact hproduced _ (by decide) (by decide)

theorem opened_genuine_sealed :
    (∃ entry : Uint256 × WatchRecord,
      loadFromDBLocked sampleCipher (.unlocked ()) (Kind.table sampleLibrary .chainWatch)
        (sealedDatabase.tables .chainWatch) = .ok (true, [entry]) ∧
      ∃ blob plain, Genuine sampleCipher () sampleCalls blob plain ∧
        (chainWatches sampleLibrary.sha256).read plain = some entry.2) ∧
    (∃ st, SubaddressStates.loadFromDb (opener sampleCipher ()) opening
        sealedDatabase.subaddresses = some st ∧ st.maxUsedIndex = 5 ∧
      ∃ plain, Genuine sampleCipher () sampleCalls (sampleBlob ⟨nullHash, [0x01, 5, 0, 0, 0]⟩)
        plain) ∧
    ∃ blob plain, sealedDatabase.recoveryCache = some blob ∧
      Genuine sampleCipher () sampleCalls blob plain := by
  obtain ⟨hopens, htables, hstate, hcache⟩ :=
    opened_genuine sampleCipher () sampleLibrary sampleCalls sealedDatabase unforged_sealedDatabase
  refine ⟨⟨_, rfl, ?_⟩, ⟨_, rfl, rfl, ?_⟩, ?_⟩
  · obtain ⟨blob, plain, record, -, hgenuine, hread, hentry⟩ :=
      (htables .chainWatch true _ rfl).1 _ mem_cons_self
    exact ⟨blob, plain, hgenuine, hread.trans (congrArg some hentry.symm)⟩
  · obtain hzero | hlabel | ⟨blob, plain, hblob, hgenuine, -⟩ := (hstate opening _ rfl).2
    · exact absurd hzero (by decide)
    · cases hlabel
    · obtain rfl := some.inj hblob
      exact ⟨plain, hgenuine⟩
  · obtain ⟨blob, plain, hblob, hgenuine, -⟩ := hcache fun hempty =>
      absurd (congrArg Index.lastScannedHeight hempty) (by decide)
    exact ⟨blob, plain, hblob, hgenuine⟩

end Samples

end Pricoin.SealedRecords
