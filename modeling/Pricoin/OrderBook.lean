import Pricoin.DurableRecords
import Pricoin.KeyImageFile

/-!
The order book of a wallet. An order is a signed offer with what is left of it, what is
reserved while it is matched, and the swap that was started from it. The orders are kept
in memory under their ids and in sealed rows of the database. A call loads the rows when
it is the first, decides on the orders that it replaces, writes their rows one after the
other, and replaces them in memory when all the writes succeed.
-/
namespace Pricoin.OrderBook

open ByteStreams KeyImageFile Codecs Codec RecordCodecs Std
open DurableRecords (Sealing)

section Records

/-- The side and the chain are the bytes they are read from. -/
structure OfferPayload where
  version : UInt8
  orderId : Uint256
  side : UInt8
  foreignChain : UInt8
  maxPricAmountSat : Int64
  foreignAmountAtMaxSat : Int64
  expiryUnixSec : Int64
  makerPubkey : Bytes 33
  signature : List UInt8
  deriving DecidableEq

def buyPric : UInt8 := 0

def sellPric : UInt8 := 1

inductive Origin where
  | locally
  | imported
  deriving DecidableEq

inductive Status where
  | active
  | matched
  | filled
  | cancelled
  | expired
  deriving DecidableEq

structure Order where
  payload : OfferPayload
  origin : Origin
  status : Status
  pricRemainingSat : Int64
  pricInFlightSat : Int64
  matchedWithOrderId : Uint256
  notes : List UInt8
  createdTime : Int64
  updatedTime : Int64
  linkedSwapId : Uint256
  deriving DecidableEq

/-- The id of no order and of no swap. -/
def nullId : Uint256 := .replicate 32 0

def Status.toByte : Status → UInt8
  | .active => 0
  | .matched => 1
  | .filled => 2
  | .cancelled => 3
  | .expired => 4

def Status.ofByte (b : UInt8) : Status :=
  if b = 0 then .active
  else if b = 1 then .matched
  else if b = 2 then .filled
  else if b = 3 then .cancelled
  else .expired

theorem Status.ofByte_toByte (s : Status) : Status.ofByte s.toByte = s := by
  cases s <;> rfl

def Origin.toByte : Origin → UInt8
  | .locally => 0
  | .imported => 1

def Origin.ofByte (b : UInt8) : Origin := if b = 0 then .locally else .imported

theorem Origin.ofByte_toByte (o : Origin) : Origin.ofByte o.toByte = o := by
  cases o <;> rfl

def payloadCodec : Codec OfferPayload :=
  (byte.pair ((block 32).pair (byte.pair (byte.pair (sint64.pair (sint64.pair
    (sint64.pair ((block 33).pair bytes)))))))).via
    (fun p => (p.version, p.orderId, p.side, p.foreignChain, p.maxPricAmountSat,
      p.foreignAmountAtMaxSat, p.expiryUnixSec, p.makerPubkey, p.signature))
    (fun x => ⟨x.1, x.2.1, x.2.2.1, x.2.2.2.1, x.2.2.2.2.1, x.2.2.2.2.2.1, x.2.2.2.2.2.2.1,
      x.2.2.2.2.2.2.2.1, x.2.2.2.2.2.2.2.2⟩)

theorem fits_payloadCodec : Fits payloadCodec :=
  (fits_byte.pair <| (fits_block 32).pair <| fits_byte.pair <| fits_byte.pair <|
    fits_sint64.pair <| fits_sint64.pair <| fits_sint64.pair <| (fits_block 33).pair
      fits_bytes).via fun _ => rfl

/-- The fields before the link to a swap, which older records do not have. -/
def unlinkedCodec : Codec Order :=
  (payloadCodec.pair (byte.pair (byte.pair (sint64.pair (sint64.pair ((block 32).pair
    (bytes.pair (sint64.pair sint64)))))))).via
    (fun o => (o.payload, o.origin.toByte, o.status.toByte, o.pricRemainingSat,
      o.pricInFlightSat, o.matchedWithOrderId, o.notes, o.createdTime, o.updatedTime))
    (fun x => ⟨x.1, .ofByte x.2.1, .ofByte x.2.2.1, x.2.2.2.1, x.2.2.2.2.1, x.2.2.2.2.2.1,
      x.2.2.2.2.2.2.1, x.2.2.2.2.2.2.2.1, x.2.2.2.2.2.2.2.2, nullId⟩)

def writeOrder (o : Order) : List UInt8 :=
  unlinkedCodec.write o ++ (block 32).write o.linkedSwapId

def readOrder (plain : List UInt8) : Option Order :=
  match unlinkedCodec.read plain with
  | none => none
  | some (o, rest) =>
    match (block 32).read rest with
    | none => some o
    | some (swapId, _) => some { o with linkedSwapId := swapId }

theorem readOrder_writeOrder {o : Order} (hsize : (writeOrder o).length ≤ maxSize) :
    readOrder (writeOrder o) = some o := by
  let bare : Order := { o with linkedSwapId := nullId }
  have hbare : unlinkedCodec.write o = unlinkedCodec.write bare := rfl
  have hfits : (payloadCodec.pair (byte.pair (byte.pair (sint64.pair (sint64.pair
      ((block 32).pair (bytes.pair (sint64.pair sint64)))))))).Lossless
      (o.payload, o.origin.toByte, o.status.toByte, o.pricRemainingSat, o.pricInFlightSat,
        o.matchedWithOrderId, o.notes, o.createdTime, o.updatedTime) := by
    refine Fits.pair fits_payloadCodec (fits_byte.pair <| fits_byte.pair <| fits_sint64.pair <|
      fits_sint64.pair <| (fits_block 32).pair <| fits_bytes.pair <|
        fits_sint64.pair fits_sint64) _ ?_
    have hlen : (unlinkedCodec.write o).length ≤ (writeOrder o).length := by
      simp [writeOrder]
    exact hlen.trans hsize
  have hread : unlinkedCodec.Lossless bare := by
    refine Lossless.via hfits ?_
    simp only [Origin.ofByte_toByte, Status.ofByte_toByte]
    rfl
  unfold readOrder writeOrder
  rw [hbare, hread]
  dsimp only
  rw [← List.append_nil ((block 32).write o.linkedSwapId), lossless_block]

end Records

section Matching

def proRateForeign (pricAmountSat askMaxPricSat askForeignAtMaxSat : Int64) : Option Int64 :=
  if pricAmountSat < 0 ∨ askMaxPricSat ≤ 0 ∨ askForeignAtMaxSat < 0 then none
  else if askMaxPricSat < pricAmountSat then none
  else
    let result := pricAmountSat.toInt * askForeignAtMaxSat.toInt / askMaxPricSat.toInt
    if Int64.maxValue.toInt < result then none else some (.ofInt result)

def IsTradeable (o : Order) (now : Int64) : Prop :=
  o.status = .active ∧ 0 < o.pricRemainingSat ∧
    ¬ (0 < o.payload.expiryUnixSec ∧ o.payload.expiryUnixSec ≤ now)

instance (o : Order) (now : Int64) : Decidable (IsTradeable o now) :=
  inferInstanceAs (Decidable (_ ∧ _ ∧ _))

/-- Rates are foreign amounts per unit, and are compared without dividing. -/
def BidRateAtLeastAskRate (bid ask : Order) : Prop :=
  ask.payload.foreignAmountAtMaxSat.toInt * bid.payload.maxPricAmountSat.toInt ≤
    bid.payload.foreignAmountAtMaxSat.toInt * ask.payload.maxPricAmountSat.toInt

instance (bid ask : Order) : Decidable (BidRateAtLeastAskRate bid ask) :=
  inferInstanceAs (Decidable (_ ≤ _))

structure MatchProposal where
  actualPricAmountSat : Int64
  actualForeignAmountSat : Int64
  bidIsUs : Bool
  deriving DecidableEq

def evaluateMatch (mine theirs : Order) (actualPricAmountSat now : Int64) :
    Option MatchProposal :=
  if ¬ IsTradeable mine now ∨ ¬ IsTradeable theirs now then none
  else if mine.payload.foreignChain ≠ theirs.payload.foreignChain then none
  else if mine.payload.side = theirs.payload.side then none
  else if actualPricAmountSat ≤ 0 then none
  else if mine.pricRemainingSat < actualPricAmountSat then none
  else if theirs.pricRemainingSat < actualPricAmountSat then none
  else
    let bid := if mine.payload.side = buyPric then mine else theirs
    let ask := if mine.payload.side = sellPric then mine else theirs
    if ¬ BidRateAtLeastAskRate bid ask then none
    else
      match proRateForeign actualPricAmountSat ask.payload.maxPricAmountSat
          ask.payload.foreignAmountAtMaxSat with
      | none => none
      | some foreign => some ⟨actualPricAmountSat, foreign, mine.payload.side = buyPric⟩

/-- What a proposal says of the two orders. -/
theorem evaluateMatch_some {mine theirs : Order} {amount now : Int64} {proposal : MatchProposal}
    (h : evaluateMatch mine theirs amount now = some proposal) :
    mine.status = .active ∧ theirs.status = .active ∧ 0 < amount ∧
      amount ≤ mine.pricRemainingSat ∧ amount ≤ theirs.pricRemainingSat := by
  simp only [evaluateMatch, Option.ite_none_left_eq_some] at h
  obtain ⟨htrade, -, -, hpos, hmine, htheirs, -⟩ := h
  obtain ⟨hm, ht⟩ := not_or.mp htrade
  exact ⟨(not_not.mp hm).1, (not_not.mp ht).1, Int64.not_le.mp hpos, Int64.not_lt.mp hmine,
    Int64.not_lt.mp htheirs⟩

end Matching

section Book

/-- The orders in memory. -/
abbrev Orders := ExtTreeMap Uint256 Order compareBytes

/-- The rows of the database. -/
abbrev Rows := ExtTreeMap Uint256 (List UInt8) compareBytes

structure Book where
  rows : Rows
  byId : Orders
  loaded : Bool

/-- A book at the start of the process. -/
def Book.fresh (rows : Rows) : Book := ⟨rows, ∅, false⟩

/-- What a call meets: a locked wallet, rows that cannot be read, for each of its writes in turn
the seed of the encryption if the write succeeds, the same for the writes of a sweep, and the
time. -/
structure Conditions (ι : Type) where
  locked : Bool
  reads : Bool
  writes : ℕ → Option ι
  sweeps : Uint256 → Option ι
  now : Int64

variable {ι ε : Type} (seals : Sealing ι) (env : Conditions ι)

/-- The order that a row holds. A row that cannot be parsed is dropped, and so is one under the
id of another order. -/
def openRow (id : Uint256) (blob : List UInt8) : Option Order :=
  ((seals.decrypt blob).bind readOrder).filter fun o => o.payload.orderId = id

/-- The orders of all rows, unless one is too long for the reader or cannot be decrypted. -/
def loadFromDB (rows : Rows) : Option Orders :=
  if rows.toList.all fun row => row.2.length ≤ maxSize ∧ (seals.decrypt row.2).isSome then
    some (rows.filterMap (openRow seals))
  else none

def ensureLoaded (b : Book) : Option Book :=
  if b.loaded then some b
  else if !env.reads then none
  else (loadFromDB seals b.rows).map fun orders => { b with byId := orders, loaded := true }

def sealOrder (seed : ι) (o : Order) : List UInt8 := seals.encrypt seed (writeOrder o)

/-- Write the rows one after the other, up to a write that fails. -/
def writeRows (n : ℕ) (rows : Rows) : List Order → Bool × Rows
  | [] => (true, rows)
  | o :: orders =>
    match env.writes n with
    | none => (false, rows)
    | some seed =>
      writeRows (n + 1) (rows.insert o.payload.orderId (sealOrder seals seed o)) orders

/-- Replace orders in memory. -/
def place (byId : Orders) (orders : List Order) : Orders :=
  orders.foldl (fun byId o => byId.insert o.payload.orderId o) byId

/-- Write the orders and keep them in memory. When a write fails the orders in memory are put back
as they were, and the rows written before stay. -/
def persist (failed ok : ε) (orders : List Order) (b : Book) : ε × Book :=
  let (written, rows) := writeRows seals env 0 b.rows orders
  if written then (ok, { b with rows := rows, byId := place b.byId orders })
  else (failed, { b with rows := rows })

/-- Refuse a locked wallet and load the orders. -/
def access (locked failed : ε) (act : Book → ε × Book) (b : Book) : ε × Book :=
  if env.locked then (locked, b)
  else
    match ensureLoaded seals env b with
    | none => (failed, b)
    | some b => act b

def Expires (now : Int64) (o : Order) : Prop :=
  o.status = .active ∧ 0 < o.payload.expiryUnixSec ∧ o.payload.expiryUnixSec ≤ now

instance (now : Int64) (o : Order) : Decidable (Expires now o) :=
  inferInstanceAs (Decidable (_ ∧ _ ∧ _))

def expire (now : Int64) (o : Order) : Order :=
  if Expires now o then { o with status := .expired, updatedTime := now } else o

/-- The rows that a sweep gets to write. -/
def sweptRows (now : Int64) (byId : Orders) : List (Uint256 × List UInt8) :=
  byId.toList.filterMap fun entry =>
    if Expires now entry.2 then
      (env.sweeps entry.1).map fun seed =>
        (entry.2.payload.orderId, sealOrder seals seed (expire now entry.2))
    else none

/-- Orders past their time become expired in memory, whether or not their rows are written. -/
def sweepExpiredLocked (now : Int64) (b : Book) : Book :=
  { b with
    byId := b.byId.map fun _ o => expire now o
    rows := b.rows.insertMany (sweptRows seals env now b.byId) }

end Book

section Calls

/-- Keys, signatures and addresses of offers. -/
structure OfferLibrary where
  signPayload : OfferPayload → Option (Bytes 33 × List UInt8)
  verifySignedPayload : OfferPayload → Bool
  decodeUri : List UInt8 → Option OfferPayload
  encodeUri : OfferPayload → List UInt8

inductive CreateResult where
  | ok
  | invalidInput
  | locked
  | derivationFailed
  | writeFailed
  deriving DecidableEq

inductive ImportResult where
  | ok
  | invalidUri
  | invalidSignature
  | duplicate
  | alreadyExpired
  | locked
  | writeFailed
  deriving DecidableEq

inductive MutateResult where
  | ok
  | notFound
  | invalidState
  | invalidInput
  | priceCrossFailed
  | locked
  | writeFailed
  deriving DecidableEq

inductive LookupResult where
  | ok
  | notFound
  | locked
  deriving DecidableEq

structure CreateParams where
  side : UInt8
  foreignChain : UInt8
  maxPricAmountSat : Int64
  foreignAmountAtMaxSat : Int64
  expiryUnixSec : Int64
  notes : List UInt8

variable {ι : Type} (lib : OfferLibrary) (seals : Sealing ι) (env : Conditions ι)

/-- An order of its full size that nothing has happened to. -/
def newOrder (payload : OfferPayload) (origin : Origin) (notes : List UInt8) (now : Int64) :
    Order where
  payload := payload
  origin := origin
  status := .active
  pricRemainingSat := payload.maxPricAmountSat
  pricInFlightSat := 0
  matchedWithOrderId := nullId
  notes := notes
  createdTime := now
  updatedTime := now
  linkedSwapId := nullId

/-- Sign an offer with the key of the wallet, and check the signature. -/
def sign (p : OfferPayload) : Option OfferPayload :=
  ((lib.signPayload p).map fun signed =>
    { p with makerPubkey := signed.1, signature := signed.2 }).filter lib.verifySignedPayload

/-- The id is drawn at random. -/
def create (params : CreateParams) (orderId : Uint256) (b : Book) :
    (CreateResult × Option Order) × Book :=
  if params.maxPricAmountSat ≤ 0 then ((.invalidInput, none), b)
  else if params.foreignAmountAtMaxSat ≤ 0 then ((.invalidInput, none), b)
  else if params.expiryUnixSec ≤ 0 then ((.invalidInput, none), b)
  else if env.locked then ((.locked, none), b)
  else
    match sign lib ⟨1, orderId, params.side, params.foreignChain, params.maxPricAmountSat,
        params.foreignAmountAtMaxSat, params.expiryUnixSec, .replicate 33 0, []⟩ with
    | none => ((.derivationFailed, none), b)
    | some payload =>
      access seals env (.locked, none) (.writeFailed, none) (fun b =>
        let o := newOrder payload .locally params.notes env.now
        persist seals env (.writeFailed, none) (.ok, some o) [o] b) b

def importOffer (uri : List UInt8) (b : Book) : (ImportResult × Option Order) × Book :=
  match lib.decodeUri uri with
  | none => ((.invalidUri, none), b)
  | some payload =>
    if !lib.verifySignedPayload payload then ((.invalidSignature, none), b)
    else if payload.maxPricAmountSat ≤ 0 ∨ payload.foreignAmountAtMaxSat ≤ 0 ∨
        payload.expiryUnixSec ≤ 0 then ((.invalidUri, none), b)
    else if payload.expiryUnixSec ≤ env.now then ((.alreadyExpired, none), b)
    else
      access seals env (.locked, none) (.writeFailed, none) (fun b =>
        if b.byId.contains payload.orderId then ((.duplicate, none), b)
        else
          let o := newOrder payload .imported [] env.now
          persist seals env (.writeFailed, none) (.ok, some o) [o] b) b

/-- Decide on the orders to replace, and replace them. -/
def amend (plan : Orders → Except MutateResult (List Order)) (b : Book) : MutateResult × Book :=
  match plan b.byId with
  | .error r => (r, b)
  | .ok orders => persist seals env .writeFailed .ok orders b

def mutate (plan : Orders → Except MutateResult (List Order)) (b : Book) : MutateResult × Book :=
  access seals env .locked .writeFailed (amend seals env plan) b

/-- The order reduced to a smaller offer of its maker. -/
def shrink (payload : OfferPayload) (now : Int64) (o : Order) : Order :=
  let remaining :=
    if payload.maxPricAmountSat < o.pricRemainingSat then payload.maxPricAmountSat
    else o.pricRemainingSat
  { o with
    payload := payload
    pricRemainingSat := remaining
    pricInFlightSat := if remaining < o.pricInFlightSat then remaining else o.pricInFlightSat
    updatedTime := now }

/-- An order that is as small already is left as it is. -/
def planUpdate (payload : OfferPayload) (now : Int64) (orders : Orders) :
    Except MutateResult (List Order) :=
  match orders[payload.orderId]? with
  | none => .error .notFound
  | some o =>
    if o.origin ≠ .imported then .error .invalidState
    else if o.payload.makerPubkey ≠ payload.makerPubkey then .error .invalidInput
    else if o.payload.side ≠ payload.side ∨ o.payload.foreignChain ≠ payload.foreignChain then
      .error .invalidInput
    else if o.payload.expiryUnixSec ≠ payload.expiryUnixSec then .error .invalidInput
    else if o.payload.maxPricAmountSat < payload.maxPricAmountSat then .error .invalidInput
    else if payload.maxPricAmountSat = o.payload.maxPricAmountSat then .ok []
    else if o.status = .cancelled ∨ o.status = .expired then .error .invalidState
    else .ok [shrink payload now o]

def applyImportedUpdate (uri : List UInt8) (b : Book) : MutateResult × Book :=
  match lib.decodeUri uri with
  | none => (.invalidInput, b)
  | some payload =>
    if !lib.verifySignedPayload payload then (.invalidInput, b)
    else if payload.maxPricAmountSat ≤ 0 ∨ payload.foreignAmountAtMaxSat ≤ 0 then
      (.invalidInput, b)
    else mutate seals env (planUpdate payload env.now) b

/-- The order that a matched one names, if it is in the book. -/
def peerOf (orders : Orders) (o : Order) : Option Order :=
  if o.matchedWithOrderId = nullId then none else orders[o.matchedWithOrderId]?

/-- The order out of its match, with nothing consumed. -/
def release (status : Status) (now : Int64) (o : Order) : Order :=
  { o with
    pricInFlightSat := 0, matchedWithOrderId := nullId, status := status, updatedTime := now }

def planCancel (orderId : Uint256) (now : Int64) (orders : Orders) :
    Except MutateResult (List Order) :=
  match orders[orderId]? with
  | none => .error .notFound
  | some target =>
    if target.status = .cancelled ∨ target.status = .filled ∨ target.status = .expired then
      .error .invalidState
    else
      let peer := if target.status = .matched then peerOf orders target else none
      .ok (release .cancelled now target :: (peer.map fun p =>
        if p.status = .matched then release .active now p else p).toList)

def cancel (orderId : Uint256) (b : Book) : MutateResult × Book :=
  mutate seals env (planCancel orderId env.now) b

/-- The order reserved for another. -/
def reserve (amount : Int64) (peerId : Uint256) (now : Int64) (o : Order) : Order :=
  { o with
    status := .matched, pricInFlightSat := amount, matchedWithOrderId := peerId,
    updatedTime := now }

def planMatch (myOrderId theirOrderId : Uint256) (amount now : Int64) (orders : Orders) :
    Except MutateResult (List Order) :=
  match orders[myOrderId]?, orders[theirOrderId]? with
  | some mine, some theirs =>
    match evaluateMatch mine theirs amount now with
    | none => .error .priceCrossFailed
    | some _ => .ok [reserve amount theirOrderId now mine, reserve amount myOrderId now theirs]
  | _, _ => .error .notFound

def matchOrders (myOrderId theirOrderId : Uint256) (amount : Int64) (b : Book) :
    MutateResult × Book :=
  if myOrderId = theirOrderId then (.invalidInput, b)
  else if amount ≤ 0 then (.invalidInput, b)
  else
    access seals env .locked .writeFailed (fun b =>
      amend seals env (planMatch myOrderId theirOrderId amount env.now)
        (sweepExpiredLocked seals env env.now b)) b

def touch (now : Int64) (o : Order) : Order := { o with updatedTime := now }

/-- A change of a matched order and of the order that it names. -/
def planMatchedPair (orderId : Uint256) (now : Int64)
    (apply : Order → Option Order → Except MutateResult (Order × Option Order))
    (orders : Orders) : Except MutateResult (List Order) :=
  match orders[orderId]? with
  | none => .error .notFound
  | some target =>
    if target.status ≠ .matched then .error .invalidState
    else
      match apply target (peerOf orders target) with
      | .error r => .error r
      | .ok (target, peer) =>
        .ok (touch now target :: (peer.map (touch now)).toList)

/-- What is left below this is not traded. -/
def orderDustRemainderSat : Int64 := 10000

/-- The order with an amount consumed. -/
def consume (amount : Int64) (o : Order) : Order :=
  { o with
    pricRemainingSat := o.pricRemainingSat - amount
    pricInFlightSat := 0
    matchedWithOrderId := nullId
    linkedSwapId := nullId
    status := if o.pricRemainingSat - amount ≤ orderDustRemainderSat then .filled else .active }

def applyFill (target : Order) (peer : Option Order) :
    Except MutateResult (Order × Option Order) :=
  if target.pricInFlightSat ≤ 0 then .error .invalidState
  else if target.pricRemainingSat < target.pricInFlightSat then .error .invalidState
  else
    let consumed := target.pricInFlightSat
    match peer with
    | none => .ok (consume consumed target, none)
    | some p =>
      if p.status = .matched then
        if p.pricInFlightSat ≠ consumed then .error .invalidState
        else .ok (consume consumed target, some (consume consumed p))
      else .ok (consume consumed target, some p)

def fill (orderId : Uint256) (b : Book) : MutateResult × Book :=
  mutate seals env (planMatchedPair orderId env.now applyFill) b

/-- A link to another swap is not overwritten. -/
def planLink (orderId swapId : Uint256) (now : Int64) (orders : Orders) :
    Except MutateResult (List Order) :=
  match orders[orderId]? with
  | none => .error .notFound
  | some o =>
    if o.linkedSwapId ≠ nullId ∧ o.linkedSwapId ≠ swapId then .error .invalidState
    else if o.linkedSwapId = swapId then .ok []
    else .ok [{ o with linkedSwapId := swapId, updatedTime := now }]

def linkSwap (orderId swapId : Uint256) (b : Book) : MutateResult × Book :=
  if swapId = nullId then (.invalidInput, b)
  else mutate seals env (planLink orderId swapId env.now) b

/-- Orders that are settled stay as they are, and so does one with less left than was consumed. -/
def planLinkedFill (orderId : Uint256) (consumedSat now : Int64) (orders : Orders) :
    Except MutateResult (List Order) :=
  match orders[orderId]? with
  | none => .error .notFound
  | some o =>
    if o.status = .filled ∨ o.status = .cancelled ∨ o.status = .expired then .ok []
    else if o.pricRemainingSat < consumedSat then .ok []
    else .ok [touch now (consume consumedSat o)]

def fillFromLinkedSwap (orderId : Uint256) (consumedSat : Int64) (b : Book) :
    MutateResult × Book :=
  if consumedSat ≤ 0 then (.invalidInput, b)
  else mutate seals env (planLinkedFill orderId consumedSat env.now) b

def applyUnmatch (now : Int64) (target : Order) (peer : Option Order) :
    Except MutateResult (Order × Option Order) :=
  .ok (release .active now target, peer.map fun p =>
    if p.status = .matched then release .active now p else p)

def unmatch (orderId : Uint256) (b : Book) : MutateResult × Book :=
  mutate seals env (planMatchedPair orderId env.now (applyUnmatch env.now)) b

def sweepExpired (now : Int64) (b : Book) : Book :=
  (access seals env () () (fun b => ((), sweepExpiredLocked seals env now b)) b).2

/-- Load and sweep, and read the orders. -/
def look {ε : Type} (answer : Orders → LookupResult × ε) (absent : ε) (b : Book) :
    (LookupResult × ε) × Book :=
  access seals env (.locked, absent) (.notFound, absent) (fun b =>
    let b := sweepExpiredLocked seals env env.now b
    (answer b.byId, b)) b

def get (orderId : Uint256) (b : Book) : (LookupResult × Option Order) × Book :=
  look seals env (fun orders =>
    match orders[orderId]? with
    | none => (.notFound, none)
    | some o => (.ok, some o)) none b

def list (b : Book) : (LookupResult × List Order) × Book :=
  look seals env (fun orders => (.ok, orders.toList.map (·.2))) [] b

structure MatchCandidate where
  theirOrderId : Uint256
  theirMaxPricSat : Int64
  theirForeignAtMaxSat : Int64
  maxActualPricSat : Int64
  priceAdvantageMilli : Int64

def candidate (myOrderId : Uint256) (mine : Order) (now : Int64) (oid : Uint256) (o : Order) :
    Option MatchCandidate :=
  if oid = myOrderId then none
  else if ¬ IsTradeable o now then none
  else if o.payload.foreignChain ≠ mine.payload.foreignChain then none
  else if o.payload.side = mine.payload.side then none
  else
    let maxActual := min mine.pricRemainingSat o.pricRemainingSat
    if maxActual ≤ 0 then none
    else if (evaluateMatch mine o maxActual now).isNone then none
    else
      let bid := if mine.payload.side = buyPric then mine else o
      let ask := if mine.payload.side = sellPric then mine else o
      let diff := (bid.payload.foreignAmountAtMaxSat.toInt * ask.payload.maxPricAmountSat.toInt -
        ask.payload.foreignAmountAtMaxSat.toInt * bid.payload.maxPricAmountSat.toInt).natAbs
      some ⟨oid, o.payload.maxPricAmountSat, o.payload.foreignAmountAtMaxSat, maxActual,
        if Int64.maxValue.toInt < diff then Int64.maxValue else .ofInt diff⟩

def findMatches (myOrderId : Uint256) (b : Book) :
    (LookupResult × List MatchCandidate) × Book :=
  look seals env (fun orders =>
    match orders[myOrderId]? with
    | none => (.notFound, [])
    | some mine =>
      if ¬ IsTradeable mine env.now then (.ok, [])
      else
        (.ok, (orders.toList.filterMap fun entry =>
          candidate myOrderId mine env.now entry.1 entry.2).mergeSort fun a c =>
            decide (c.priceAdvantageMilli ≤ a.priceAdvantageMilli))) [] b

def exportUri (orderId : Uint256) (b : Book) : (LookupResult × List UInt8) × Book :=
  match get seals env orderId b with
  | ((.ok, some o), b) =>
    ((.ok, if o.origin ≠ .locally then [] else lib.encodeUri o.payload), b)
  | ((r, _), b) => ((r, []), b)

/-- The offer for what is left of an order, at the rate of the order. -/
def republished (o : Order) : Option OfferPayload :=
  if o.origin ≠ .locally then none
  else if o.pricRemainingSat ≤ 0 then none
  else if o.pricRemainingSat = o.payload.maxPricAmountSat then some o.payload
  else if o.payload.maxPricAmountSat ≤ 0 then none
  else
    let foreign := Int64.ofInt (o.payload.foreignAmountAtMaxSat.toInt * o.pricRemainingSat.toInt /
      o.payload.maxPricAmountSat.toInt)
    if foreign ≤ 0 then none
    else sign lib { o.payload with
      maxPricAmountSat := o.pricRemainingSat, foreignAmountAtMaxSat := foreign }

def republishUri (orderId : Uint256) (b : Book) : List UInt8 × Book :=
  access seals env [] [] (fun b =>
    ((((b.byId[orderId]?).bind (republished lib)).map lib.encodeUri).getD [], b)) b

inductive Call where
  | create (params : CreateParams) (orderId : Uint256)
  | importOffer (uri : List UInt8)
  | applyImportedUpdate (uri : List UInt8)
  | cancel (orderId : Uint256)
  | matchOrders (myOrderId theirOrderId : Uint256) (amount : Int64)
  | fill (orderId : Uint256)
  | linkSwap (orderId swapId : Uint256)
  | fillFromLinkedSwap (orderId : Uint256) (consumedSat : Int64)
  | unmatch (orderId : Uint256)
  | sweepExpired (now : Int64)
  | get (orderId : Uint256)
  | list
  | findMatches (myOrderId : Uint256)
  | exportUri (orderId : Uint256)
  | republishUri (orderId : Uint256)

/-- The book after a call. -/
def perform (b : Book) : Call → Book
  | .create params orderId => (create lib seals env params orderId b).2
  | .importOffer uri => (importOffer lib seals env uri b).2
  | .applyImportedUpdate uri => (applyImportedUpdate lib seals env uri b).2
  | .cancel orderId => (cancel seals env orderId b).2
  | .matchOrders myOrderId theirOrderId amount =>
    (matchOrders seals env myOrderId theirOrderId amount b).2
  | .fill orderId => (fill seals env orderId b).2
  | .linkSwap orderId swapId => (linkSwap seals env orderId swapId b).2
  | .fillFromLinkedSwap orderId consumedSat =>
    (fillFromLinkedSwap seals env orderId consumedSat b).2
  | .unmatch orderId => (unmatch seals env orderId b).2
  | .sweepExpired now => sweepExpired seals env now b
  | .get orderId => (get seals env orderId b).2
  | .list => (list seals env b).2
  | .findMatches myOrderId => (findMatches seals env myOrderId b).2
  | .exportUri orderId => (exportUri lib seals env orderId b).2
  | .republishUri orderId => (republishUri lib seals env orderId b).2

end Calls

end Pricoin.OrderBook
