import Pricoin.Base64
import Pricoin.ExactCodecs
import Pricoin.JointStealth
import Pricoin.MatchedPairs

/-!
Addresses of offers. An offer is serialised, and the bytes are written as text behind a
scheme. The reader takes the text apart and reads the offer from the front of the bytes. It
does not look at what follows the offer, takes any byte for the side and the chain, and turns
a key that is none into the empty key, which is written as zeros.
-/
namespace Pricoin.OfferUris

open ByteStreams KeyImageFile Codecs Codec RecordCodecs ExactCodecs Base64 JointStealth List Option
open OrderBook (payloadCodec OfferLibrary Book Conditions importOffer)

variable {r : OrderBook.OfferPayload} {p : OfferPayload} {uri bs : List UInt8}

section Code

/-- An offer with the key of its maker as the program holds it. -/
structure OfferPayload where
  version : UInt8
  orderId : Uint256
  side : UInt8
  foreignChain : UInt8
  maxPricAmountSat : Int64
  foreignAmountAtMaxSat : Int64
  expiryUnixSec : Int64
  makerPubkey : CPubKey
  signature : List UInt8

theorem length_padded {vch : List UInt8} (h : vch.length ≤ 33) :
    (vch ++ List.replicate (33 - vch.length) 0).length = 33 := by
  rw [length_append, length_replicate]
  omega

/-- The key copied into an array of 33 zeros. A longer key is written past its end, which counts
as no result. -/
def pubBytes (key : CPubKey) : Option (Bytes 33) :=
  if h : key.vch.length ≤ 33 then
    some ⟨key.vch ++ List.replicate (33 - key.vch.length) 0, length_padded h⟩
  else none

/-- The fields as they are written. -/
def toRecord (p : OfferPayload) : Option OrderBook.OfferPayload :=
  (pubBytes p.makerPubkey).map fun key => ⟨p.version, p.orderId, p.side, p.foreignChain,
    p.maxPricAmountSat, p.foreignAmountAtMaxSat, p.expiryUnixSec, key, p.signature⟩

def ofRecord (r : OrderBook.OfferPayload) : OfferPayload :=
  ⟨r.version, r.orderId, r.side, r.foreignChain, r.maxPricAmountSat, r.foreignAmountAtMaxSat,
    r.expiryUnixSec, .ofBytes r.makerPubkey.toList, r.signature⟩

def serializePayload (p : OfferPayload) : Option (List UInt8) :=
  (toRecord p).map payloadCodec.write

def deserializePayload (bytes : List UInt8) : Option OfferPayload :=
  (payloadCodec.read bytes).map fun x => ofRecord x.1

def kUriScheme : List UInt8 := ascii "pricoffer:v1/"

def encodeUri (p : OfferPayload) : Option (List UInt8) :=
  (serializePayload p).map fun bytes => kUriScheme ++ encodeBase64 bytes

def decodeUri (uri : List UInt8) : Option OfferPayload :=
  if uri.length ≤ kUriScheme.length then none
  else if uri.take kUriScheme.length ≠ kUriScheme then none
  else (decodeBase64 (uri.drop kUriScheme.length)).bind deserializePayload

def offerTag : List UInt8 := ascii "pricoin/offer-v1"

variable (hash : List UInt8 → Uint256) (verify : CPubKey → Uint256 → List UInt8 → Bool)

def signingHash (p : OfferPayload) : Option Uint256 :=
  (serializePayload { p with signature := [] }).map fun bytes => hash (offerTag ++ bytes)

def verifySignedPayload (p : OfferPayload) : Bool :=
  p.makerPubkey.isValid && p.makerPubkey.isCompressed && !p.signature.isEmpty &&
    ((signingHash hash p).any fun h => verify p.makerPubkey h p.signature)

/-- The functions that the order book uses. -/
def offerLibrary (signPayload : OrderBook.OfferPayload → Option (Bytes 33 × List UInt8)) :
    OfferLibrary where
  signPayload := signPayload
  verifySignedPayload r := verifySignedPayload hash verify (ofRecord r)
  decodeUri uri := (decodeUri uri).bind toRecord
  encodeUri r := ((encodeUri (ofRecord r)).getD [])

end Code

section Records

theorem exact_sint64 : Exact sint64 := by
  refine exact_int64.via fun s a rest h => ?_
  obtain ⟨⟨n, rest'⟩, hn, h⟩ := Option.map_eq_some_iff.mp h
  obtain ⟨rfl, rfl⟩ := Prod.mk.inj h
  have hlt := lt_of_read_uint hn
  refine Int64.toInt_ofInt_of_le ?_ ?_ <;>
  · unfold toInt64
    split <;> omega

theorem exact_payloadCodec : Exact payloadCodec :=
  (exact_byte.pair <| (exact_block 32).pair <| exact_byte.pair <| exact_byte.pair <|
    exact_sint64.pair <| exact_sint64.pair <| exact_sint64.pair <| (exact_block 33).pair
      (exact_byteVector maxSize)).via fun _ _ _ _ => rfl

theorem lossless_payloadCodec (hsize : r.signature.length ≤ maxSize) : payloadCodec.Lossless r := by
  have hsmall : maxSize < 2 ^ 64 := by decide
  refine Lossless.via ?_ rfl
  refine (lossless_byte _).pair <| (lossless_block _).pair <| (lossless_byte _).pair <|
    (lossless_byte _).pair <| ?_
  have hint : ∀ n : Int64, sint64.Lossless n := fun n =>
    Lossless.via (lossless_int64 n.le_toInt n.toInt_lt) n.ofInt_toInt
  exact (hint _).pair <| (hint _).pair <| (hint _).pair <| (lossless_block _).pair
    (lossless_byteVector hsize (by omega))

theorem signature_of_read {s rest : List UInt8} (h : payloadCodec.read s = some (r, rest)) :
    r.signature.length ≤ maxSize := by
  obtain ⟨⟨fields, rest'⟩, hfields, hr⟩ := Option.map_eq_some_iff.mp h
  obtain ⟨rfl, rfl⟩ := Prod.mk.inj hr
  obtain ⟨_, -, h⟩ := read_pair hfields
  obtain ⟨_, -, h⟩ := read_pair h
  obtain ⟨_, -, h⟩ := read_pair h
  obtain ⟨_, -, h⟩ := read_pair h
  obtain ⟨_, -, h⟩ := read_pair h
  obtain ⟨_, -, h⟩ := read_pair h
  obtain ⟨_, -, h⟩ := read_pair h
  obtain ⟨_, -, h⟩ := read_pair h
  exact length_le_of_read_vector exact_byte h

end Records

section Keys

/-- The bytes are a key in the length that the first of them gives, or all zero as for no key. -/
def KeyBytes (key : List UInt8) : Prop := validSize key = true ∨ key = List.replicate 33 0

theorem length_vch (key : CPubKey) :
    key.vch.length = 0 ∨ key.vch.length = 33 ∨ key.vch.length = 65 := by
  obtain ⟨vch, rfl | hsize⟩ := key
  · exact .inl rfl
  · cases vch with
    | nil => exact .inl rfl
    | cons b rest =>
      have hlen : getLen b = (b :: rest).length := by simpa [validSize] using hsize
      unfold getLen at hlen
      split at hlen
      · exact .inr (.inl hlen.symm)
      · split at hlen
        · exact .inr (.inr hlen.symm)
        · exact .inl hlen.symm

theorem CPubKey.ext {a b : CPubKey} (h : a.vch = b.vch) : a = b := by
  cases a
  cases b
  congr

/-- A key of at most 33 bytes is read back from the array. -/
theorem ofBytes_of_pubBytes {key : CPubKey} {b : Bytes 33} (h : pubBytes key = some b) :
    CPubKey.ofBytes b.toList = key := by
  unfold pubBytes at h
  split at h
  · rename_i hle
    obtain rfl := some.inj h
    apply CPubKey.ext
    obtain ⟨vch, hwell⟩ := key
    rcases hwell with rfl | hsize
    · rfl
    · have hlength := length_vch ⟨vch, .inr hsize⟩
      have hfull : vch.length = 33 := by
        cases vch with
        | nil => cases hsize
        | cons b rest =>
          simp only [length_cons] at hlength hle ⊢
          omega
      have hbytes : vch ++ List.replicate (33 - vch.length) 0 = vch := by
        rw [hfull]
        exact append_nil vch
      change (CPubKey.ofBytes (vch ++ List.replicate (33 - vch.length) 0)).vch = vch
      rw [hbytes, CPubKey.ofBytes, dif_pos hsize]
  · cases h

/-- Bytes are written back as they were exactly when they are a key or all zero. -/
theorem pubBytes_ofBytes (b : Bytes 33) :
    pubBytes (CPubKey.ofBytes b.toList) = some b ↔ KeyBytes b.toList := by
  by_cases hsize : validSize b.toList = true
  · have hkey : (CPubKey.ofBytes b.toList).vch = b.toList := by
      rw [CPubKey.ofBytes, dif_pos hsize]
    have hle : (CPubKey.ofBytes b.toList).vch.length ≤ 33 := by
      rw [hkey, b.toList_length]
    refine iff_of_true ?_ (.inl hsize)
    rw [pubBytes, dif_pos hle]
    refine congrArg some (List.Vector.toList_injective ?_)
    change (CPubKey.ofBytes b.toList).vch ++ _ = b.toList
    rw [hkey, b.toList_length]
    exact append_nil _
  · have hkey : CPubKey.ofBytes b.toList = ⟨[], .inl rfl⟩ := by
      rw [CPubKey.ofBytes, dif_neg hsize]
    have hzero : pubBytes ⟨[], .inl rfl⟩ = some (.replicate 33 0) := rfl
    rw [hkey, hzero, KeyBytes, or_iff_right hsize, some.injEq, eq_comm]
    exact List.Vector.toList_injective.eq_iff.symm

end Keys

section Layout

/-- The fields of an offer before the key. -/
def head (r : OrderBook.OfferPayload) : List UInt8 :=
  (r.version :: r.orderId.toList) ++ r.side :: r.foreignChain ::
    (sint64.write r.maxPricAmountSat ++ (sint64.write r.foreignAmountAtMaxSat ++
      sint64.write r.expiryUnixSec))

theorem write_eq (r : OrderBook.OfferPayload) :
    payloadCodec.write r = head r ++ (r.makerPubkey.toList ++ bytes.write r.signature) := by
  change r.version :: (r.orderId.toList ++ r.side :: r.foreignChain ::
    (sint64.write r.maxPricAmountSat ++ (sint64.write r.foreignAmountAtMaxSat ++
      (sint64.write r.expiryUnixSec ++ (r.makerPubkey.toList ++ bytes.write r.signature))))) = _
  simp only [head, cons_append, append_assoc]

theorem length_sint64 (n : Int64) : (sint64.write n).length = 8 := leBytes_length _ _

theorem length_head (r : OrderBook.OfferPayload) : (head r).length = 59 := by
  simp only [head, length_append, length_cons, length_sint64, List.Vector.toList_length]

theorem write_ne_nil (r : OrderBook.OfferPayload) (rest : List UInt8) :
    payloadCodec.write r ++ rest ≠ [] := by
  rw [write_eq, head]
  exact cons_ne_nil _ _

end Layout

section Uris

theorem toRecord_eq_some (h : toRecord p = some r) :
    ofRecord r = p ∧ r.signature = p.signature := by
  obtain ⟨key, hkey, rfl⟩ := Option.map_eq_some_iff.mp h
  refine ⟨?_, rfl⟩
  unfold ofRecord
  rw [ofBytes_of_pubBytes hkey]

theorem toRecord_ofRecord (r : OrderBook.OfferPayload) :
    toRecord (ofRecord r) = some r ↔ KeyBytes r.makerPubkey.toList := by
  rw [← pubBytes_ofBytes, toRecord, Option.map_eq_some_iff]
  constructor
  · rintro ⟨key, hkey, heq⟩
    have hsame : key = r.makerPubkey := congrArg OrderBook.OfferPayload.makerPubkey heq
    rwa [hsame] at hkey
  · intro hkey
    exact ⟨_, hkey, rfl⟩

theorem encodeUri_eq_some :
    encodeUri p = some uri ↔
      ∃ r, toRecord p = some r ∧ kUriScheme ++ encodeBase64 (payloadCodec.write r) = uri := by
  rw [encodeUri, serializePayload, Option.map_map, Option.map_eq_some_iff]
  rfl

theorem encodeBase64_injective : Function.Injective encodeBase64 := by
  intro bs cs h
  have hdecode := decodeBase64_encodeBase64 bs
  rw [h, decodeBase64_encodeBase64] at hdecode
  exact (some.inj hdecode).symm

theorem encodeBase64_ne_nil (hne : bs ≠ []) : encodeBase64 bs ≠ [] := by
  intro hnil
  have hdecode := decodeBase64_encodeBase64 bs
  rw [hnil] at hdecode
  exact hne (some.inj hdecode).symm

/-- A text behind the scheme is read as the offer in its bytes. -/
theorem decodeUri_scheme (hne : bs ≠ []) :
    decodeUri (kUriScheme ++ encodeBase64 bs) = deserializePayload bs := by
  have hlength : ¬ (kUriScheme ++ encodeBase64 bs).length ≤ kUriScheme.length := by
    rw [length_append]
    have hpos := length_pos_of_ne_nil (encodeBase64_ne_nil hne)
    omega
  rw [decodeUri, if_neg hlength, take_left, if_neg (not_not.mpr rfl), drop_left,
    decodeBase64_encodeBase64, bind_some]

/-- An address is accepted exactly when its text is that of an offer and whatever follows it. -/
theorem decodeUri_eq_some :
    decodeUri uri = some p ↔ ∃ r rest, r.signature.length ≤ maxSize ∧ p = ofRecord r ∧
      uri = kUriScheme ++ encodeBase64 (payloadCodec.write r ++ rest) := by
  constructor
  · intro h
    unfold decodeUri at h
    split at h
    · cases h
    split at h
    · cases h
    rename_i hscheme
    obtain ⟨bs, hbs, h⟩ := bind_eq_some_iff.mp h
    obtain ⟨⟨r, rest⟩, hread, rfl⟩ := Option.map_eq_some_iff.mp h
    refine ⟨r, rest, signature_of_read hread, rfl, ?_⟩
    rw [← exact_payloadCodec bs r rest hread, encodeBase64_of_decodeBase64 hbs]
    have hsplit := take_append_drop kUriScheme.length uri
    rwa [not_not.mp hscheme, eq_comm] at hsplit
  · rintro ⟨r, rest, hsize, rfl, rfl⟩
    rw [decodeUri_scheme (write_ne_nil r rest), deserializePayload,
      lossless_payloadCodec hsize rest]
    rfl

/-- The two values that the side and the chain have. -/
def Declared (b : UInt8) : Prop := b = 0 ∨ b = 1

instance decidableDeclared (b : UInt8) : Decidable (Declared b) :=
  inferInstanceAs (Decidable (b = 0 ∨ b = 1))

/-- The bytes of the side and of the chain are there and have declared values. -/
structure DeclaredBytes (bs : List UInt8) : Prop where
  side : bs[33]? = some 0 ∨ bs[33]? = some 1
  foreignChain : bs[34]? = some 0 ∨ bs[34]? = some 1

/-- Besides, the key is one or none, and nothing follows the signature. -/
structure CleanBytes (bs : List UInt8) : Prop extends DeclaredBytes bs where
  key : KeyBytes ((bs.drop 59).take 33)
  signature : ∃ signature : List UInt8, signature.length ≤ maxSize ∧
    bs.drop 92 = bytes.write signature

theorem declaredBytes_iff (r : OrderBook.OfferPayload) (rest : List UInt8) :
    DeclaredBytes (payloadCodec.write r ++ rest) ↔ Declared r.side ∧ Declared r.foreignChain := by
  have hprefix : (r.version :: r.orderId.toList).length = 33 := by simp
  have hside : (payloadCodec.write r ++ rest)[33]? = some r.side := by
    rw [write_eq, head, append_assoc, append_assoc,
      List.getElem?_append_right (by omega), hprefix]
    rfl
  have hchain : (payloadCodec.write r ++ rest)[34]? = some r.foreignChain := by
    rw [write_eq, head, append_assoc, append_assoc,
      List.getElem?_append_right (by omega), hprefix]
    rfl
  constructor
  · rintro ⟨h, h'⟩
    rw [hside, some.injEq, some.injEq] at h
    rw [hchain, some.injEq, some.injEq] at h'
    exact ⟨h, h'⟩
  · rintro ⟨h, h'⟩
    refine ⟨?_, ?_⟩
    · rwa [hside, some.injEq, some.injEq]
    · rwa [hchain, some.injEq, some.injEq]

theorem take_key (r : OrderBook.OfferPayload) (rest : List UInt8) :
    ((payloadCodec.write r ++ rest).drop 59).take 33 = r.makerPubkey.toList := by
  rw [write_eq, append_assoc, drop_left' (length_head r), append_assoc,
    take_left' r.makerPubkey.toList_length]

theorem drop_key (r : OrderBook.OfferPayload) (rest : List UInt8) :
    (payloadCodec.write r ++ rest).drop 92 = bytes.write r.signature ++ rest := by
  have hlength : (head r ++ r.makerPubkey.toList).length = 92 := by
    rw [length_append, length_head, List.Vector.toList_length]
  rw [write_eq, ← append_assoc, append_assoc, drop_left' hlength]

theorem lossless_bytes {signature : List UInt8} (hsize : signature.length ≤ maxSize) :
    bytes.Lossless signature :=
  lossless_byteVector hsize (lt_of_le_of_lt hsize (by decide))

/-- The bytes of an offer are clean if nothing follows it and its fields are proper. -/
theorem cleanBytes_iff (hsize : r.signature.length ≤ maxSize) (rest : List UInt8) :
    CleanBytes (payloadCodec.write r ++ rest) ↔
      rest = [] ∧ Declared r.side ∧ Declared r.foreignChain ∧ KeyBytes r.makerPubkey.toList := by
  constructor
  · rintro ⟨hdeclared, hkey, signature, hsmall, hsignature⟩
    obtain ⟨hside, hchain⟩ := (declaredBytes_iff r rest).mp hdeclared
    rw [take_key] at hkey
    refine ⟨?_, hside, hchain, hkey⟩
    rw [drop_key] at hsignature
    -- both texts are read, the second to its end
    have hread := lossless_bytes hsize rest
    have hread' := lossless_bytes hsmall []
    rw [append_nil, ← hsignature, hread] at hread'
    exact (Prod.mk.inj (some.inj hread')).2
  · rintro ⟨rfl, hside, hchain, hkey⟩
    refine ⟨(declaredBytes_iff r []).mpr ⟨hside, hchain⟩, ?_, r.signature, hsize, ?_⟩
    · rwa [take_key]
    · rw [drop_key, append_nil]

theorem read_back_iff (p : OfferPayload) :
    (encodeUri p).bind decodeUri = some p ↔
      p.makerPubkey.vch.length ≤ 33 ∧ p.signature.length ≤ maxSize := by
  constructor
  · intro h
    obtain ⟨uri, huri, h⟩ := bind_eq_some_iff.mp h
    obtain ⟨r, hr, -⟩ := encodeUri_eq_some.mp huri
    obtain ⟨key, hkey, -⟩ := Option.map_eq_some_iff.mp hr
    obtain ⟨r', rest, hsize, hp, -⟩ := decodeUri_eq_some.mp h
    refine ⟨?_, ?_⟩
    · unfold pubBytes at hkey
      split at hkey
      · assumption
      · cases hkey
    · rw [hp]
      exact hsize
  · rintro ⟨hkey, hsize⟩
    obtain ⟨key, hbytes⟩ : ∃ key, pubBytes p.makerPubkey = some key := ⟨_, dif_pos hkey⟩
    obtain ⟨r, hrecord⟩ : ∃ r, toRecord p = some r := ⟨_, by rw [toRecord, hbytes]; rfl⟩
    obtain ⟨hback, hsignature⟩ := toRecord_eq_some hrecord
    refine bind_eq_some_iff.mpr ⟨_, encodeUri_eq_some.mpr ⟨r, hrecord, rfl⟩, ?_⟩
    refine decodeUri_eq_some.mpr ⟨r, [], hsignature ▸ hsize, hback.symm, ?_⟩
    rw [append_nil]

theorem written_back_iff (h : decodeUri uri = some p)
    (hbs : decodeBase64 (uri.drop kUriScheme.length) = some bs) :
    encodeUri p = some uri ∧ Declared p.side ∧ Declared p.foreignChain ↔ CleanBytes bs := by
  obtain ⟨r, rest, hsize, rfl, rfl⟩ := decodeUri_eq_some.mp h
  rw [drop_left, decodeBase64_encodeBase64] at hbs
  obtain rfl := some.inj hbs
  rw [cleanBytes_iff hsize]
  constructor
  · rintro ⟨huri, hside, hchain⟩
    obtain ⟨r', hr', heq⟩ := encodeUri_eq_some.mp huri
    have hwrite := encodeBase64_injective (append_cancel_left heq)
    -- the offer written back is read from the same bytes
    have hread := lossless_payloadCodec hsize rest
    have hsame : r'.signature = r.signature := (toRecord_eq_some hr').2
    have hread' := lossless_payloadCodec (hsame ▸ hsize) []
    rw [append_nil, hwrite, hread] at hread'
    obtain ⟨rfl, rfl⟩ := Prod.mk.inj (some.inj hread')
    exact ⟨rfl, hside, hchain, (toRecord_ofRecord r).mp hr'⟩
  · rintro ⟨rfl, hside, hchain, hkey⟩
    rw [append_nil]
    exact ⟨encodeUri_eq_some.mpr ⟨r, (toRecord_ofRecord r).mpr hkey, rfl⟩, hside, hchain⟩

end Uris

section Imports

variable {ι : Type} {seals : DurableRecords.Sealing ι} {env : Conditions ι}

/-- An order that is imported holds the offer of the address. -/
theorem decodeUri_of_importOffer {lib : OfferLibrary} {b b' : Book} {o : OrderBook.Order}
    (h : importOffer lib seals env uri b = ((.ok, some o), b')) :
    lib.decodeUri uri = some o.payload := by
  unfold importOffer at h
  cases hpayload : lib.decodeUri uri with
  | none =>
    rw [hpayload] at h
    cases h
  | some payload =>
    rw [hpayload] at h
    dsimp only at h
    split at h
    · cases h
    split at h
    · cases h
    split at h
    · cases h
    unfold OrderBook.access at h
    split at h
    · cases h
    split at h
    · cases h
    dsimp only at h
    split at h
    · cases h
    unfold OrderBook.persist at h
    dsimp only at h
    split at h
    · cases h
      rfl
    · cases h

/-- Offers that are written are read back if the key fits the array and the signature is not longer
than the reader takes. An accepted address is that of the offer read from it, with declared side
and chain, exactly when its bytes are clean, and an imported order has a declared side and chain
exactly when the bytes of the address have. -/
theorem uri_canonical_iff (hash : List UInt8 → Uint256)
    (verify : CPubKey → Uint256 → List UInt8 → Bool)
    (sign : OrderBook.OfferPayload → Option (Bytes 33 × List UInt8))
    (seals : DurableRecords.Sealing ι) (env : Conditions ι) :
    (∀ p : OfferPayload, (encodeUri p).bind decodeUri = some p ↔
      p.makerPubkey.vch.length ≤ 33 ∧ p.signature.length ≤ maxSize) ∧
    (∀ (uri bs : List UInt8) (p : OfferPayload), decodeUri uri = some p →
      decodeBase64 (uri.drop kUriScheme.length) = some bs →
      (encodeUri p = some uri ∧ Declared p.side ∧ Declared p.foreignChain ↔ CleanBytes bs)) ∧
    ∀ (uri bs : List UInt8) (b b' : Book) (o : OrderBook.Order),
      importOffer (offerLibrary hash verify sign) seals env uri b = ((.ok, some o), b') →
      decodeBase64 (uri.drop kUriScheme.length) = some bs →
      (Declared o.payload.side ∧ Declared o.payload.foreignChain ↔ DeclaredBytes bs) := by
  refine ⟨read_back_iff, fun uri bs p => written_back_iff, ?_⟩
  intro uri bs b b' o h hbs
  obtain ⟨p, hp, hrecord⟩ := bind_eq_some_iff.mp (decodeUri_of_importOffer h)
  obtain ⟨r, rest, hsize, rfl, rfl⟩ := decodeUri_eq_some.mp hp
  rw [drop_left, decodeBase64_encodeBase64] at hbs
  obtain rfl := some.inj hbs
  have hback : ofRecord o.payload = ofRecord r := (toRecord_eq_some hrecord).1
  have hside : o.payload.side = r.side := congrArg OfferPayload.side hback
  have hchain : o.payload.foreignChain = r.foreignChain := congrArg OfferPayload.foreignChain hback
  rw [declaredBytes_iff, hside, hchain]

end Imports

section Sample

open DurableRecords (plainSealing)
open OrderBook (calm sampleOffer newOrder loadFromDB_empty)

/-- A library that takes every signature for valid. -/
def trustingLibrary : OfferLibrary :=
  offerLibrary (fun _ => .replicate 32 0) (fun _ _ _ => true) fun _ => none

def freshBook : Book := .fresh ∅

/-- An offer whose side is neither of the two. -/
def sidelessOffer : OrderBook.OfferPayload := { sampleOffer 3 10 with side := 2 }

/-- The address of the offer and one more byte. -/
def looseUri : List UInt8 := kUriScheme ++ encodeBase64 (payloadCodec.write sidelessOffer ++ [0])

theorem importOffer_fresh (huri : decodeUri uri = some (ofRecord r))
    (hrecord : toRecord (ofRecord r) = some r)
    (hverified : trustingLibrary.verifySignedPayload r = true)
    (hvalid : ¬ (r.maxPricAmountSat ≤ 0 ∨ r.foreignAmountAtMaxSat ≤ 0 ∨ r.expiryUnixSec ≤ 0)) :
    (importOffer trustingLibrary plainSealing calm uri freshBook).1 =
      (.ok, some (newOrder r .imported [] 0)) := by
  have hdecode : trustingLibrary.decodeUri uri = some r :=
    bind_eq_some_iff.mpr ⟨ofRecord r, huri, hrecord⟩
  have hload : OrderBook.ensureLoaded plainSealing calm freshBook = some ⟨∅, ∅, true⟩ := by
    unfold OrderBook.ensureLoaded freshBook Book.fresh
    rw [loadFromDB_empty]
    rfl
  have hopen : ¬ r.expiryUnixSec ≤ calm.now := fun h => hvalid (.inr (.inr h))
  unfold importOffer
  rw [hdecode]
  dsimp only
  rw [hverified, if_neg (by decide), if_neg hvalid, if_neg hopen, OrderBook.access,
    if_neg (by decide), hload]
  dsimp only
  rw [if_neg (by simp)]
  rfl

theorem decodeUri_looseUri : decodeUri looseUri = some (ofRecord sidelessOffer) :=
  decodeUri_eq_some.mpr ⟨sidelessOffer, [0], by decide, rfl, rfl⟩

theorem toRecord_sidelessOffer : toRecord (ofRecord sidelessOffer) = some sidelessOffer :=
  (toRecord_ofRecord sidelessOffer).mpr (.inl rfl)

/-- The address is read, is not the one of the offer read, and is imported with its side. -/
theorem loose_address_imported :
    decodeUri looseUri = some (ofRecord sidelessOffer) ∧
      encodeUri (ofRecord sidelessOffer) ≠ some looseUri ∧ ¬ Declared sidelessOffer.side ∧
      (importOffer trustingLibrary plainSealing calm looseUri freshBook).1 =
        (.ok, some (newOrder sidelessOffer .imported [] 0)) := by
  refine ⟨decodeUri_looseUri, ?_, by decide,
    importOffer_fresh decodeUri_looseUri toRecord_sidelessOffer rfl (by decide)⟩
  intro h
  obtain ⟨r, hr, heq⟩ := encodeUri_eq_some.mp h
  obtain rfl := some.inj (hr.symm.trans toRecord_sidelessOffer)
  have hwrite := encodeBase64_injective (append_cancel_left heq)
  simpa using congrArg List.length hwrite

/-- The address of a proper offer, with an empty rest. -/
def properUri : List UInt8 :=
  kUriScheme ++ encodeBase64 (payloadCodec.write (sampleOffer 3 10) ++ [])

theorem decodeUri_properUri : decodeUri properUri = some (ofRecord (sampleOffer 3 10)) :=
  decodeUri_eq_some.mpr ⟨sampleOffer 3 10, [], by decide, rfl, rfl⟩

theorem decodeBase64_properUri : decodeBase64 (properUri.drop kUriScheme.length) =
    some (payloadCodec.write (sampleOffer 3 10) ++ []) := by
  rw [properUri, drop_left, decodeBase64_encodeBase64]

theorem cleanBytes_properUri : CleanBytes (payloadCodec.write (sampleOffer 3 10) ++ []) :=
  (cleanBytes_iff (by decide) []).mpr ⟨rfl, by decide, by decide, .inl rfl⟩

/-- The address of a proper offer is written back and imported with declared values. -/
theorem uri_canonical_iff_sample :
    encodeUri (ofRecord (sampleOffer 3 10)) = some properUri ∧
      (encodeUri (ofRecord (sampleOffer 3 10))).bind decodeUri =
        some (ofRecord (sampleOffer 3 10)) ∧
      ∃ o b, importOffer trustingLibrary plainSealing calm properUri freshBook =
        ((.ok, some o), b) ∧ Declared o.payload.side ∧ Declared o.payload.foreignChain := by
  obtain ⟨hback, hforth, himport⟩ := uri_canonical_iff (fun _ => .replicate 32 0)
    (fun _ _ _ => true) (fun _ => none) plainSealing calm
  have hrecord : toRecord (ofRecord (sampleOffer 3 10)) = some (sampleOffer 3 10) :=
    (toRecord_ofRecord _).mpr (.inl rfl)
  have himported := importOffer_fresh decodeUri_properUri hrecord rfl (by decide)
  cases hrun : importOffer trustingLibrary plainSealing calm properUri freshBook with
  | mk answer b =>
    rw [hrun] at himported
    dsimp only at himported
    subst himported
    refine ⟨?_, (hback _).mpr ⟨by decide, by decide⟩, _, b, rfl, ?_⟩
    · exact ((hforth _ _ _ decodeUri_properUri decodeBase64_properUri).mpr cleanBytes_properUri).1
    · exact (himport _ _ _ _ _ hrun decodeBase64_properUri).mpr
        cleanBytes_properUri.toDeclaredBytes

end Sample

end Pricoin.OfferUris
