import Pricoin.AddressedCaches
import Pricoin.MatchedPairs
import Pricoin.Musig2Nonces
import Pricoin.SwapSessions

/-!
The wallets of a process. Nonce records, orders, swap sessions and the key images of
broadcast spends are kept in each wallet's database and in memory under the address of the
wallet. The memory outlives the wallet, so that a wallet that comes to the address of an
unloaded one is given the records of that one and writes them to its own database. Where no
address is used by two wallets, each wallet fares as if it were alone.
-/
namespace Pricoin.WalletIsolation

open ByteStreams KeyImageFile AddressedCaches Std
open DurableRecords (Sealing Format Conditions plainSealing)
open Musig2Nonces (RecordKey NonceRecord)

section KeyImages

abbrev KiTable := ExtTreeMap (Bytes 33) Uint256 compareBytes

/-- The key images of broadcast spends in memory, and whether the rows were looked at. -/
structure KiCache where
  entries : KiTable
  loaded : Bool

inductive KiCall where
  | add (keyImage : Bytes 33) (txid : Uint256)
  | lookup (keyImage : Bytes 33)

inductive KiReply where
  | added (ok : Bool)
  | found (txid : Option Uint256)
  deriving DecidableEq

/-- The rows are looked at once, also when they cannot be read. -/
def kiLoaded (reads : Bool) (c : KiCache) (rows : KiTable) : KiCache :=
  if c.loaded then c else ⟨if reads then rows else c.entries, true⟩

/-- An entry stays in memory when its row is not written. -/
def kiPerform (reads writes : Bool) (c : KiCache) (rows : KiTable) :
    KiCall → KiReply × KiCache × KiTable
  | .add keyImage txid =>
    let c := kiLoaded reads c rows
    if c.entries[keyImage]? = some txid then (.added true, c, rows)
    else
      let c := { c with entries := c.entries.insert keyImage txid }
      if writes then (.added true, c, rows.insert keyImage txid) else (.added false, c, rows)
  | .lookup keyImage =>
    let c := kiLoaded reads c rows
    (.found c.entries[keyImage]?, c, rows)

end KeyImages

section Nonces

inductive NonceCall where
  | change (call : Musig2Nonces.Call)
  | erase (key : RecordKey)
  | get (key : RecordKey)
  | list

inductive NonceReply where
  | changed (reply : Musig2Nonces.Reply)
  | erased (result : Option ClsagNonces.MutateResult)
  | found (result : OrderBook.LookupResult × Option NonceRecord)
  | table (result : OrderBook.LookupResult × (RecordKey → Option NonceRecord))

variable {δ ι : Type} [DecidableEq δ] (fmt : Format RecordKey δ NonceRecord) (seals : Sealing ι)
  (env : ClsagNonces.Env ι)

/-- The record is taken out of the rows and then out of memory. -/
def erase (key : RecordKey) (c : Musig2Nonces.Wallet δ) :
    Option ClsagNonces.MutateResult × Musig2Nonces.Wallet δ :=
  if env.locked then (some .locked, c)
  else
    match DurableRecords.ensureLoaded fmt seals env.toConditions c with
    | (.threw, c) => (none, c)
    | (.failed, c) => (some .writeFailed, c)
    | (.done, c) =>
      if (c.store key).isNone then (some .notFound, c)
      else if !env.writes then (some .writeFailed, c)
      else
        (some .ok, { c with
          rows := c.rows.filter fun row => row.1 ≠ fmt.digest key
          store := Function.update c.store key none })

/-- A locked wallet and one that cannot be loaded give nothing. -/
def readRecords (c : Musig2Nonces.Wallet δ) :
    (OrderBook.LookupResult × (RecordKey → Option NonceRecord)) × Musig2Nonces.Wallet δ :=
  if env.locked then ((.locked, fun _ => none), c)
  else
    match DurableRecords.ensureLoaded fmt seals env.toConditions c with
    | (.done, c) => ((.ok, c.store), c)
    | (_, c) => ((.notFound, fun _ => none), c)

def lookupIn (key : RecordKey) :
    OrderBook.LookupResult × (RecordKey → Option NonceRecord) →
      OrderBook.LookupResult × Option NonceRecord
  | (.ok, records) =>
    match records key with
    | none => (.notFound, none)
    | some record => (.ok, some record)
  | (result, _) => (result, none)

def noncePerform (c : Musig2Nonces.Wallet δ) : NonceCall → NonceReply × Musig2Nonces.Wallet δ
  | .change call => (Musig2Nonces.perform fmt seals c (.call env call)).map .changed id
  | .erase key => (erase fmt seals env key c).map .erased id
  | .get key => (readRecords fmt seals env c).map (.found ∘ lookupIn key) id
  | .list => (readRecords fmt seals env c).map .table id

end Nonces

section Offers

open OrderBook

inductive OfferReply where
  | created (result : CreateResult × Option Order)
  | imported (result : ImportResult × Option Order)
  | mutated (result : MutateResult)
  | swept
  | found (result : LookupResult × Option Order)
  | listed (result : LookupResult × List Order)
  | candidates (result : LookupResult × List MatchCandidate)
  | uri (result : LookupResult × List UInt8)
  | text (uri : List UInt8)

variable {ι : Type} (lib : OfferLibrary) (seals : Sealing ι) (env : OrderBook.Conditions ι)

def offerReply (b : Book) : Call → OfferReply
  | .create params orderId => .created (create lib seals env params orderId b).1
  | .importOffer uri => .imported (importOffer lib seals env uri b).1
  | .applyImportedUpdate uri => .mutated (applyImportedUpdate lib seals env uri b).1
  | .cancel orderId => .mutated (cancel seals env orderId b).1
  | .matchOrders mine theirs amount => .mutated (matchOrders seals env mine theirs amount b).1
  | .fill orderId => .mutated (fill seals env orderId b).1
  | .linkSwap orderId swapId => .mutated (linkSwap seals env orderId swapId b).1
  | .fillFromLinkedSwap orderId consumed =>
    .mutated (fillFromLinkedSwap seals env orderId consumed b).1
  | .unmatch orderId => .mutated (unmatch seals env orderId b).1
  | .sweepExpired _ => .swept
  | .get orderId => .found (get seals env orderId b).1
  | .list => .listed (list seals env b).1
  | .findMatches mine => .candidates (findMatches seals env mine b).1
  | .exportUri orderId => .uri (exportUri lib seals env orderId b).1
  | .republishUri orderId => .text (republishUri lib seals env orderId b).1

end Offers

section Wallets

variable {ω δ ι : Type} [DecidableEq δ]

/-- What the four modules keep in memory under an address. -/
structure Memory where
  nonces : RecordKey → Option NonceRecord
  noncesLoaded : Bool
  orders : OrderBook.Orders
  ordersLoaded : Bool
  sessions : Uint256 → Option SwapSessions.SwapSession
  sessionsLoaded : Bool
  keyImages : KiCache

/-- The rows of the four modules in the database of a wallet. -/
structure Tables (δ : Type) where
  nonceRows : List (δ × List UInt8)
  orderRows : OrderBook.Rows
  sessionRows : List (Uint256 × List UInt8)
  keyImageRows : KiTable

def Memory.fresh : Memory :=
  ⟨fun _ => none, false, ∅, false, fun _ => none, false, ∅, false⟩

/-- A call of one of the modules, with what it meets. -/
inductive Operation (ι : Type) where
  | nonce (env : ClsagNonces.Env ι) (call : NonceCall)
  | offer (env : OrderBook.Conditions ι) (call : OrderBook.Call)
  | session (env : SwapSessions.Env ι) (call : SwapSessions.Call)
  | keyImage (reads writes : Bool) (call : KiCall)

inductive Reply where
  | nonce (reply : NonceReply)
  | offer (reply : OfferReply)
  | session (reply : SwapSessions.Reply)
  | keyImage (reply : KiReply)

/-- What belongs to a wallet apart from its database: its encryption and its keys. -/
structure Wallet (δ ι : Type) where
  format : Format RecordKey δ NonceRecord
  seals : Sealing ι
  offers : OrderBook.OfferLibrary
  sessions : SwapSessions.SessionLibrary

def runNonce (w : Wallet δ ι) (env : ClsagNonces.Env ι) (call : NonceCall) (m : Memory)
    (t : Tables δ) : Reply × Memory × Tables δ :=
  let (reply, c) := noncePerform w.format w.seals env ⟨t.nonceRows, m.nonces, m.noncesLoaded⟩ call
  (.nonce reply, { m with nonces := c.store, noncesLoaded := c.loaded },
    { t with nonceRows := c.rows })

def runOffer (w : Wallet δ ι) (env : OrderBook.Conditions ι) (call : OrderBook.Call) (m : Memory)
    (t : Tables δ) : Reply × Memory × Tables δ :=
  let b : OrderBook.Book := ⟨t.orderRows, m.orders, m.ordersLoaded⟩
  let b' := OrderBook.perform w.offers w.seals env b call
  (.offer (offerReply w.offers w.seals env b call),
    { m with orders := b'.byId, ordersLoaded := b'.loaded }, { t with orderRows := b'.rows })

def runSession (w : Wallet δ ι) (env : SwapSessions.Env ι) (call : SwapSessions.Call) (m : Memory)
    (t : Tables δ) : Reply × Memory × Tables δ :=
  let (reply, c) := SwapSessions.perform w.sessions w.seals env
    ⟨t.sessionRows, m.sessions, m.sessionsLoaded⟩ call
  (.session reply, { m with sessions := c.store, sessionsLoaded := c.loaded },
    { t with sessionRows := c.rows })

def runKeyImage (reads writes : Bool) (call : KiCall) (m : Memory) (t : Tables δ) :
    Reply × Memory × Tables δ :=
  let (reply, c, rows) := kiPerform reads writes m.keyImages t.keyImageRows call
  (.keyImage reply, { m with keyImages := c }, { t with keyImageRows := rows })

/-- The four modules on the wallets of a process. -/
def program (wallets : ω → Wallet δ ι) : Program ω Memory (Tables δ) (Operation ι) Reply where
  fresh := .fresh
  run x
    | .nonce env call => runNonce (wallets x) env call
    | .offer env call => runOffer (wallets x) env call
    | .session env call => runSession (wallets x) env call
    | .keyImage reads writes call => runKeyImage reads writes call

/-- In every history in which no wallet comes to an address where another has left memory, the
replies that a wallet gets and the rows that it comes to hold are those of its own events. -/
theorem wallets_isolated {α : Type} [DecidableEq α] [DecidableEq ω] (wallets : ω → Wallet δ ι)
    (databases : ω → Tables δ) (events : List (Event α ω (Operation ι)))
    (hapart : Runs.Always (step (program wallets)) Apart (.start databases) events) (x : ω) :
    answers (program wallets) x (.start databases) events =
        answers (program wallets) x (.start databases)
          (own (program wallets) x (.start databases) events) ∧
      (events.foldl (step (program wallets)) (.start databases)).databases x =
        ((own (program wallets) x (.start databases) events).foldl (step (program wallets))
          (.start databases)).databases x :=
  isolated (kept_start databases) (part_start x databases) hapart

end Wallets

section Samples

open OrderBook (sampleOffers calm sampleId sellPric)

def sampleWallet : Wallet (List UInt8) Unit where
  format := Musig2Nonces.sampleFormat
  seals := plainSealing
  offers := sampleOffers
  sessions := ⟨fun _ => true, none, fun _ _ => none, fun _ _ _ => false⟩

def twoWallets : Bool → Wallet (List UInt8) Unit := fun _ => sampleWallet

def emptyTables : Bool → Tables (List UInt8) := fun _ => ⟨[], ∅, [], ∅⟩

/-- A wallet creates an order and is unloaded, and another wallet is loaded at an address of its
own or at the same one, lists its orders and cancels the one it may have been given. -/
def succession (address : Bool) : List (Event Bool Bool (Operation Unit)) :=
  [.load false false,
    .operate false (.offer calm (.create ⟨sellPric, 0, 100000, 100000, 100, []⟩ (sampleId 1))),
    .unload false, .load true address, .operate address (.offer calm .list),
    .operate address (.offer calm (.cancel (sampleId 1)))]

/-- The ids of the orders in a listing. -/
def listedIds : Reply → List Uint256
  | .offer (.listed (_, orders)) => orders.map (·.payload.orderId)
  | _ => []

/-- At the same address the second wallet, which has no records, is given the order of the first
and comes to have it in its database. -/
theorem order_of_another_wallet :
    ((answers (program twoWallets) true (.start emptyTables) (succession false)).map listedIds =
        [[sampleId 1], []]) ∧
      (((succession false).foldl (step (program twoWallets)) (.start emptyTables)).databases
        true).orderRows.contains (sampleId 1) := by
  decide +kernel

theorem apart_succession :
    Runs.Always (step (program twoWallets)) Apart (.start emptyTables) (succession true) :=
  ⟨.inl rfl, trivial, trivial, .inl rfl, trivial, trivial, trivial⟩

theorem wallets_isolated_succession :
    answers (program twoWallets) true (.start emptyTables) (succession true) =
        answers (program twoWallets) true (.start emptyTables)
          (own (program twoWallets) true (.start emptyTables) (succession true)) ∧
      ((succession true).foldl (step (program twoWallets)) (.start emptyTables)).databases true =
        ((own (program twoWallets) true (.start emptyTables) (succession true)).foldl
          (step (program twoWallets)) (.start emptyTables)).databases true :=
  wallets_isolated twoWallets emptyTables (succession true) apart_succession true

end Samples

end Pricoin.WalletIsolation
