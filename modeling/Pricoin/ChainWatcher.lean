import Pricoin.AdaptorSwaps

/-!
The watcher that moves swaps on. It polls the transactions of the registered entries and
calls the setter that belongs to each, looks for spends of what the wallet has locked,
and broadcasts refunds when their time has come. A tick is taken step by step, so that
other calls can come between the steps.
-/
namespace Pricoin.ChainWatcher

open ByteStreams KeyImageFile DurableRecords AdaptorSwaps List

variable {ι : Type} {w : Watcher} {s : AdaptorSwap} {queue : List AdaptorSwap} {c c' : Wallet}

section Hex

def hexDigit (c : UInt8) : Option UInt8 :=
  if 48 ≤ c ∧ c ≤ 57 then some (c - 48)
  else if 97 ≤ c ∧ c ≤ 102 then some (c - 87)
  else if 65 ≤ c ∧ c ≤ 70 then some (c - 55)
  else none

def hexBytes : Text → Option (List UInt8)
  | [] => some []
  | [_] => none
  | high :: low :: text => do
    let high ← hexDigit high
    let low ← hexDigit low
    let bytes ← hexBytes text
    return (16 * high + low) :: bytes

def isHex (text : Text) : Bool := text ≠ [] ∧ (hexBytes text).isSome

/-- The bytes of an id are shown in reverse order. -/
def fromHex (text : Text) : Option Uint256 := do
  let bytes ← hexBytes text
  if h : bytes.reverse.length = 32 then some ⟨bytes.reverse, h⟩ else none

end Hex

section Store

inductive WatchKind where
  | foreignFunding
  | pricFunding
  | pricClaim
  | foreignClaim
  | pricRefund
  | foreignRefund
  deriving DecidableEq

def WatchKind.isForeign : WatchKind → Bool
  | .foreignFunding => true
  | .foreignClaim => true
  | .foreignRefund => true
  | _ => false

def WatchKind.isFunding : WatchKind → Bool
  | .foreignFunding => true
  | .pricFunding => true
  | _ => false

structure WatchEntry where
  swapId : Uint256
  kind : WatchKind
  txidHex : Text
  vout : Int32
  minConfirmations : Int32
  addedUnix : Int64
  deriving DecidableEq

def validEntry (e : WatchEntry) : Bool :=
  e.swapId ≠ nullHash ∧ e.txidHex.length = 64 ∧ isHex e.txidHex ∧ 0 ≤ e.minConfirmations ∧
    ¬ (e.kind.isFunding ∧ e.vout < 0)

inductive StoreResult where
  | ok
  | invalidInput
  | locked
  | writeFailed
  | notFound
  deriving DecidableEq

/-- What a call on the entries meets: a locked wallet, entries that cannot be loaded, rows that
cannot be written or erased. -/
structure StoreConditions where
  locked : Bool
  opens : Bool
  writes : Bool

/-- The digest under which an entry is kept, as a number. -/
abbrev Digest := Uint256 → WatchKind → ℕ

variable (digest : Digest)

/-- The entries are kept in the order of their digests. -/
def putEntry (e : WatchEntry) : List WatchEntry → List WatchEntry
  | [] => [e]
  | p :: ps =>
    if digest p.swapId p.kind = digest e.swapId e.kind then e :: ps
    else if digest e.swapId e.kind < digest p.swapId p.kind then e :: p :: ps
    else p :: putEntry e ps

def getEntry (swapId : Uint256) (kind : WatchKind) (pending : List WatchEntry) :
    Option WatchEntry :=
  pending.find? fun p => digest p.swapId p.kind = digest swapId kind

def eraseEntry (swapId : Uint256) (kind : WatchKind) (pending : List WatchEntry) :
    List WatchEntry :=
  pending.filter fun p => digest p.swapId p.kind ≠ digest swapId kind

/-- The row is written before the copy in memory is changed, so that both hold the same
entries. -/
def add (env : StoreConditions) (unixTime : Int64) (e : WatchEntry) (pending : List WatchEntry) :
    StoreResult × List WatchEntry :=
  if !validEntry e then (.invalidInput, pending)
  else if env.locked then (.locked, pending)
  else if !env.opens then (.writeFailed, pending)
  else if !env.writes then (.writeFailed, pending)
  else (.ok, putEntry digest
    (if e.addedUnix = 0 then { e with addedUnix := unixTime } else e) pending)

def remove (env : StoreConditions) (swapId : Uint256) (kind : WatchKind)
    (pending : List WatchEntry) : StoreResult × List WatchEntry :=
  if env.locked then (.locked, pending)
  else if !env.opens then (.writeFailed, pending)
  else if (getEntry digest swapId kind pending).isNone then (.notFound, pending)
  else if !env.writes then (.writeFailed, pending)
  else (.ok, eraseEntry digest swapId kind pending)

end Store

section Watcher

/-- What a chain says about a transaction. -/
structure TxStatus where
  found : Bool
  confirmations : Int32
  blockHeight : Int32

structure Outspend where
  spent : Bool
  spendingTxid : Text

inductive Leg where
  | ltc
  | btc
  | pric
  deriving DecidableEq

/-- What the watcher meets at a step. The two environments are those of reading swaps and of
setting them, and likewise for entries. A missing answer is a backend that cannot be
reached, and a missing id is a broadcast that failed. -/
structure Turn (ι : Type) where
  swapEnv : Env ι
  setEnv : Env ι
  storeEnv : StoreConditions
  addEnv : StoreConditions
  now : ℕ
  unixTime : Int64
  injected : Bool
  registered : Bool
  status : Option TxStatus
  outspend : Option Outspend
  tip : Option Int32
  fee : Int64
  broadcast : Option Text
  order : List Uint256

/-- A backend for the chain is there. -/
def Turn.client {ι : Type} (turn : Turn ι) : Bool := turn.injected || turn.registered

/-- Where the watcher is in its tick. -/
inductive Phase where
  | idle
  | entries (queue : List WatchEntry)
  | detect (queue : List AdaptorSwap)
  | refundLtc (queue : List AdaptorSwap)
  | refundBtc (queue : List AdaptorSwap)
  | refundPric (tip : Int32) (queue : List AdaptorSwap)

/-- A refund that was handed to a backend. -/
structure Broadcast where
  leg : Leg
  swapId : Uint256
  tx : Text
  deriving DecidableEq

/-- The watcher and the wallet that it works on. The last three fields note the refunds handed
to a backend in this tick, the refunds of foreign coins that a backend took, and the spends
that were detected. -/
structure Watcher where
  swaps : Wallet
  pending : List WatchEntry
  errorAt : Text → Option ℕ
  attempted : Leg → List Uint256
  phase : Phase
  broadcasts : List Broadcast
  refundTxids : List (Uint256 × Text)
  detected : List (Uint256 × Text)

/-- The parts of the script that locks the foreign coin. -/
structure DLHTLC where
  T_G : Bytes 33
  recipientPub : Bytes 33
  senderPub : Bytes 33
  timeout : Int32

structure HTLCFunding where
  prevTxid : Uint256
  prevVout : Int32
  prevValue : Int64
  redeemScript : DLHTLC

/-- Keys, addresses and transactions. A refund that is signed for comes as the text that is
broadcast, with its id where that is computed here. -/
structure Library where
  digest : Digest
  swapPub : Option (Bytes 33)
  witnessScript : Text → Option (List UInt8)
  signRefund : HTLCFunding → Int32 → List UInt8 → Int64 → Option Text
  finalBtcRefund : Text → List UInt8 → Option Text
  finalPricRefund : Text → List UInt8 → Option (Text × Text)

/-- The settings of the node. -/
structure Config where
  autoRefund : Bool
  ltcRefundAddr : Text

def backoffCooldown : ℕ := 60

def coolingDown (w : Watcher) (chain : Text) (now : ℕ) : Bool :=
  match w.errorAt chain with
  | none => false
  | some failed => now - failed < backoffCooldown

def recordChainError (chain : Text) (now : ℕ) (w : Watcher) : Watcher :=
  { w with errorAt := Function.update w.errorAt chain (some now) }

variable (decodeTx : Text → Option Uint256) (seals : Sealing ι) (lib : Library)

section Entries

/-- The setter that an entry asks for. -/
def WatchEntry.transition (e : WatchEntry) (blockHeight : Int32) : Option Transition :=
  match e.kind with
  | .foreignFunding => some (.setBtcFunded e.txidHex e.vout blockHeight)
  | .pricFunding => (fromHex e.txidHex).map fun txid => .setPricFunded txid e.vout blockHeight
  | .pricClaim => (fromHex e.txidHex).map fun txid => .setPricClaimed txid
  | .foreignClaim => some (.setComplete e.txidHex)
  | .pricRefund => (fromHex e.txidHex).map fun txid => .setRefunded txid []
  | .foreignRefund => some (.setRefunded nullHash e.txidHex)

/-- What becomes of an entry. The answer of the setter makes no difference. -/
inductive Handled where
  | threw
  | waits
  | consumed (result : Option TransitionResult)

def applyTransition (turn : Turn ι) (e : WatchEntry) (status : TxStatus) (w : Watcher) :
    Handled × Watcher :=
  if !status.found ∨ status.confirmations < e.minConfirmations then (.waits, w)
  else match e.transition status.blockHeight with
    | none => (.consumed (some .invalidInput), w)
    | some t =>
      match call decodeTx seals turn.setEnv e.swapId t w.swaps with
      | (none, c) => (.threw, { w with swaps := c })
      | (some r, c) => (.consumed (some r), { w with swaps := c })

def handleEntry (turn : Turn ι) (e : WatchEntry) (w : Watcher) : Handled × Watcher :=
  if e.kind.isForeign then
    match get decodeTx seals turn.swapEnv e.swapId w.swaps with
    | (none, c) => (.threw, { w with swaps := c })
    | (some (.ok s), c) =>
      let w := { w with swaps := c }
      if coolingDown w s.foreignChain turn.now then (.waits, w)
      else if !turn.client then (.waits, w)
      else match turn.status with
        | none => (.waits, recordChainError s.foreignChain turn.now w)
        | some status => applyTransition decodeTx seals turn e status w
    | (some _, c) => (.consumed none, { w with swaps := c })
  else match turn.status with
    | none => (.waits, w)
    | some status => applyTransition decodeTx seals turn e status w

end Entries

section Detection

/-- Any spend of the foreign funding is watched as the claim of the other side. -/
def tryAutoDetectForeignClaim (turn : Turn ι) (s : AdaptorSwap) (w : Watcher) : Watcher :=
  if s.role ≠ .bob then w
  else if s.state ≠ .pricClaimed then w
  else if s.foreignFundingTxid = [] then w
  else if s.foreignFundingVout < 0 then w
  else if turn.storeEnv.opens ∧ (getEntry lib.digest s.swapId .foreignClaim w.pending).isSome then w
  else if !turn.client then w
  else if coolingDown w s.foreignChain turn.now then w
  else match turn.outspend with
    | none => recordChainError s.foreignChain turn.now w
    | some os =>
      if !os.spent then w
      else if os.spendingTxid = [] then w
      else match add lib.digest turn.addEnv turn.unixTime
          ⟨s.swapId, .foreignClaim, os.spendingTxid, -1, 1, turn.unixTime⟩ w.pending with
        | (.ok, pending) =>
          { w with pending := pending, detected := (s.swapId, os.spendingTxid) :: w.detected }
        | (_, pending) => { w with pending := pending }

end Detection

section Refunds

def funded (state : State) : Bool :=
  state = .btcFunded ∨ state = .bothFunded ∨ state = .pricClaimed

/-- The states in which the helpers for signed refunds go on. -/
def presignedRefundable (state : State) : Bool :=
  state = .preSigned ∨ state = .pricClaimed ∨ state = .bothFunded

def buildDLHTLCScript (T_G recipientPub senderPub : Bytes 33) (timeout : Int32) :
    Option DLHTLC :=
  if T_G.head ≠ 2 ∧ T_G.head ≠ 3 then none
  else if T_G.tail.toList.all (· = 0) then none
  else if timeout < 0 then none
  else some ⟨T_G, recipientPub, senderPub, timeout⟩

def buildRefundTx (funding : HTLCFunding) (timeout : Int32) (destScript : List UInt8)
    (fee : Int64) : Option Text :=
  if funding.prevValue ≤ 0 then none
  else if fee < 0 ∨ funding.prevValue ≤ fee then none
  else if destScript = [] then none
  else lib.signRefund funding timeout destScript fee

/-- The refund of the foreign coin in the script, from what the record has. -/
def htlcRefund (dest : Text) (fee : Int64) (s : AdaptorSwap) : Option Text := do
  let swapPub ← lib.swapPub
  let redeem ← buildDLHTLCScript s.T_G s.counterpartyPub swapPub s.foreignRefundHeight
  let destScript ← lib.witnessScript dest
  let prevTxid ← fromHex s.foreignFundingTxid
  buildRefundTx lib ⟨prevTxid, s.foreignFundingVout, s.foreignAmountSat, redeem⟩
    s.foreignRefundHeight destScript fee

def ltcRefund (locked : Bool) (dest : Text) (fee : Int64) (s : AdaptorSwap) : Option Text :=
  if s.foreignChain ≠ ltc then none
  else if s.role ≠ .bob then none
  else if !s.adaptorSet then none
  else if !s.timelocksSet ∨ s.foreignRefundHeight ≤ 0 then none
  else if s.foreignFundingTxid = [] ∨ s.foreignFundingVout < 0 then none
  else if s.foreignRefundTxid ≠ [] then none
  else if locked then none
  else htlcRefund lib dest fee s

def btcRefund (s : AdaptorSwap) : Option Text :=
  if s.foreignChain ≠ btc then none
  else if !presignedRefundable s.state then none
  else if s.foreignRefundTxid ≠ [] then none
  else if s.btcRefundUnsignedTxHex = [] then none
  else if s.presigs.btcRefundSig.length ≠ 64 then none
  else lib.finalBtcRefund s.btcRefundUnsignedTxHex s.presigs.btcRefundSig

def pricRefund (s : AdaptorSwap) : Option (Text × Text) :=
  if !presignedRefundable s.state then none
  else if s.pricRefundTxid ≠ nullHash then none
  else if s.pricRefundUnsignedTxHex = [] then none
  else if s.presigs.pricRefundSigBlob = [] then none
  else lib.finalPricRefund s.pricRefundUnsignedTxHex s.presigs.pricRefundSigBlob

/-- Hand a refund of the foreign coin to the registered backend, and watch it. -/
def broadcastForeign (turn : Turn ι) (leg : Leg) (swapId : Uint256) (tx : Text) (w : Watcher) :
    Bool × Watcher :=
  if !turn.registered then (false, w)
  else
    let w := { w with broadcasts := ⟨leg, swapId, tx⟩ :: w.broadcasts }
    match turn.broadcast with
    | none => (false, w)
    | some txid =>
      (true, { w with
        pending := (add lib.digest turn.addEnv turn.unixTime
          ⟨swapId, .foreignRefund, txid, 0, 1, 0⟩ w.pending).2
        refundTxids := (swapId, txid) :: w.refundTxids })

/-- Look the swap up again, build its refund and broadcast it. -/
def autoBroadcast {α : Type} (turn : Turn ι) (swapId : Uint256) (build : AdaptorSwap → Option α)
    (broadcast : α → Watcher → Bool × Watcher) (w : Watcher) : Option Bool × Watcher :=
  match get decodeTx seals turn.swapEnv swapId w.swaps with
  | (none, c) => (none, { w with swaps := c })
  | (some (.ok s), c) =>
    match build s with
    | none => (some false, { w with swaps := c })
    | some tx =>
      let (ok, w) := broadcast tx { w with swaps := c }
      (some ok, w)
  | (some _, c) => (some false, { w with swaps := c })

def autoBroadcastLtcRefund (dest : Text) (turn : Turn ι) (swapId : Uint256) (w : Watcher) :
    Option Bool × Watcher :=
  autoBroadcast decodeTx seals turn swapId (ltcRefund lib turn.setEnv.locked dest turn.fee)
    (broadcastForeign lib turn .ltc swapId) w

def autoBroadcastBtcRefund (turn : Turn ι) (swapId : Uint256) (w : Watcher) :
    Option Bool × Watcher :=
  autoBroadcast decodeTx seals turn swapId (btcRefund lib)
    (broadcastForeign lib turn .btc swapId) w

/-- Hand the refund to the node, and watch it. -/
def broadcastPric (turn : Turn ι) (swapId : Uint256) (tx : Text × Text) (w : Watcher) :
    Bool × Watcher :=
  let w := { w with broadcasts := ⟨.pric, swapId, tx.1⟩ :: w.broadcasts }
  match turn.broadcast with
  | none => (false, w)
  | some _ =>
    (true, { w with
      pending := (add lib.digest turn.addEnv turn.unixTime
        ⟨swapId, .pricRefund, tx.2, -1, 1, 0⟩ w.pending).2 })

def autoBroadcastPricRefund (turn : Turn ι) (swapId : Uint256) (w : Watcher) :
    Option Bool × Watcher :=
  autoBroadcast decodeTx seals turn swapId (pricRefund lib) (broadcastPric lib turn swapId) w

/-- Note an attempt that went well, and stop at an exception. -/
def noteAttempt (leg : Leg) (swapId : Uint256) :
    Option Bool × Watcher → Bool × Watcher
  | (none, w) => (false, w)
  | (some false, w) => (true, w)
  | (some true, w) =>
    (true, { w with attempted := Function.update w.attempted leg (swapId :: w.attempted leg) })

/-- One swap of a pass over the swaps with a foreign coin to refund. -/
def tryAutoRefundForeign (leg : Leg) (chain : Text) (wanted : AdaptorSwap → Bool)
    (broadcast : Turn ι → Uint256 → Watcher → Option Bool × Watcher) (turn : Turn ι)
    (s : AdaptorSwap) (w : Watcher) : Bool × Watcher :=
  if !wanted s then (true, w)
  else if s.swapId ∈ w.attempted leg then (true, w)
  else if !turn.client then (true, w)
  else if coolingDown w chain turn.now then (true, w)
  else match turn.tip with
    | none => (true, recordChainError chain turn.now w)
    | some tip =>
      if tip < s.foreignRefundHeight then (true, w)
      else noteAttempt leg s.swapId (broadcast turn s.swapId w)

def wantsLtcRefund (s : AdaptorSwap) : Bool :=
  s.role = .bob ∧ s.foreignChain = ltc ∧ funded s.state ∧ s.foreignFundingTxid ≠ [] ∧
    s.foreignRefundTxid = [] ∧ 0 < s.foreignRefundHeight

def wantsBtcRefund (s : AdaptorSwap) : Bool :=
  s.foreignChain = btc ∧ funded s.state ∧ s.btcRefundUnsignedTxHex ≠ [] ∧
    s.presigs.btcRefundSig ≠ [] ∧ s.foreignRefundTxid = [] ∧ 0 < s.foreignRefundHeight

def wantsPricRefund (s : AdaptorSwap) : Bool :=
  s.role = .alice ∧ (s.state = .pricClaimed ∨ s.state = .bothFunded) ∧
    s.pricRefundUnsignedTxHex ≠ [] ∧ s.presigs.pricRefundSigBlob ≠ [] ∧
    s.pricRefundTxid = nullHash ∧ 0 < s.pricRefundHeight

def tryAutoRefundLtc (dest : Text) : Turn ι → AdaptorSwap → Watcher → Bool × Watcher :=
  tryAutoRefundForeign .ltc ltc wantsLtcRefund (autoBroadcastLtcRefund decodeTx seals lib dest)

def tryAutoRefundBtc : Turn ι → AdaptorSwap → Watcher → Bool × Watcher :=
  tryAutoRefundForeign .btc btc wantsBtcRefund (autoBroadcastBtcRefund decodeTx seals lib)

def tryAutoRefundPric (tip : Int32) (turn : Turn ι) (s : AdaptorSwap) (w : Watcher) :
    Bool × Watcher :=
  if !wantsPricRefund s then (true, w)
  else if s.swapId ∈ w.attempted .pric then (true, w)
  else if tip < s.pricRefundHeight then (true, w)
  else noteAttempt .pric s.swapId (autoBroadcastPricRefund decodeTx seals lib turn s.swapId w)

end Refunds

section Ticks

/-- List the swaps for a pass. -/
def startPass (pass : List AdaptorSwap → Phase) (turn : Turn ι) (w : Watcher) : Watcher :=
  match list decodeTx seals turn.swapEnv w.swaps with
  | (none, c) => { w with swaps := c, phase := .idle }
  | (some (.ok records), c) =>
    { w with swaps := c, phase := pass (turn.order.filterMap records) }
  | (some _, c) => { w with swaps := c, phase := pass [] }

/-- Go on with a pass, unless an exception ended the tick. -/
def goOn (phase : Phase) : Bool × Watcher → Watcher
  | (true, w) => { w with phase := phase }
  | (false, w) => { w with phase := .idle }

/-- An entry that is consumed is removed. -/
def handleNext (turn : Turn ι) (e : WatchEntry) (queue : List WatchEntry) (w : Watcher) :
    Watcher :=
  match handleEntry decodeTx seals turn e w with
  | (.threw, w) => { w with phase := .idle }
  | (.waits, w) => { w with phase := .entries queue }
  | (.consumed _, w) =>
    { w with
      pending := (remove lib.digest turn.storeEnv e.swapId e.kind w.pending).2
      phase := .entries queue }

variable (cfg : Config)

/-- The watcher's next step. -/
def next (turn : Turn ι) (w : Watcher) : Watcher :=
  match w.phase with
  | .idle =>
    if turn.storeEnv.opens then { w with phase := .entries w.pending, broadcasts := [] } else w
  | .entries (e :: queue) => handleNext decodeTx seals lib turn e queue w
  | .entries [] => startPass decodeTx seals .detect turn w
  | .detect (s :: queue) =>
    { tryAutoDetectForeignClaim lib turn s w with phase := .detect queue }
  | .detect [] =>
    if !cfg.autoRefund ∨ cfg.ltcRefundAddr = [] then { w with phase := .refundLtc [] }
    else startPass decodeTx seals .refundLtc turn w
  | .refundLtc (s :: queue) =>
    goOn (.refundLtc queue) (tryAutoRefundLtc decodeTx seals lib cfg.ltcRefundAddr turn s w)
  | .refundLtc [] =>
    if !cfg.autoRefund then { w with phase := .refundBtc [] }
    else startPass decodeTx seals .refundBtc turn w
  | .refundBtc (s :: queue) =>
    goOn (.refundBtc queue) (tryAutoRefundBtc decodeTx seals lib turn s w)
  | .refundBtc [] =>
    if !cfg.autoRefund then { w with phase := .idle }
    else match turn.tip with
      | none => { startPass decodeTx seals (.refundPric 0) turn w with phase := .idle }
      | some tip => startPass decodeTx seals (.refundPric tip) turn w
  | .refundPric tip (s :: queue) =>
    goOn (.refundPric tip queue) (tryAutoRefundPric decodeTx seals lib tip turn s w)
  | .refundPric _ [] => { w with phase := .idle }

end Ticks

inductive Event (ι : Type) where
  | swaps (event : AdaptorSwaps.Event ι)
  | addWatch (env : StoreConditions) (unixTime : Int64) (e : WatchEntry)
  | removeWatch (env : StoreConditions) (swapId : Uint256) (kind : WatchKind)
  | next (turn : Turn ι)

variable (cfg : Config)

/-- A new process has an idle watcher that remembers no attempts and no errors. -/
def step (w : Watcher) : Event ι → Watcher
  | .swaps .restart =>
    { w with
      swaps := AdaptorSwaps.step decodeTx seals w.swaps .restart
      errorAt := fun _ => none, attempted := fun _ => [], phase := .idle }
  | .swaps event => { w with swaps := AdaptorSwaps.step decodeTx seals w.swaps event }
  | .addWatch env unixTime e =>
    { w with pending := (add lib.digest env unixTime e w.pending).2 }
  | .removeWatch env swapId kind =>
    { w with pending := (remove lib.digest env swapId kind w.pending).2 }
  | .next turn => next decodeTx seals lib cfg turn w

/-- A wallet without swaps and entries. -/
def newWatcher : Watcher :=
  ⟨⟨[], fun _ => none, false⟩, [], fun _ => none, fun _ => [], .idle, [], [], []⟩

def run (events : List (Event ι)) : Watcher :=
  events.foldl (step decodeTx seals lib cfg) newWatcher

end Watcher

section Passes

variable (decodeTx : Text → Option Uint256) (seals : Sealing ι) (lib : Library)
variable (turn : Turn ι)

/-- A swap was looked up, or the swaps were listed. -/
def Looks (c c' : Wallet) : Prop :=
  (∃ swapId result, get decodeTx seals turn.swapEnv swapId c = (result, c')) ∨
    ∃ result, list decodeTx seals turn.swapEnv c = (result, c')

/-- The spends of the swap's coin are looked for at this step. -/
def Phase.Detects : Phase → AdaptorSwap → Prop
  | .detect (s :: _), s' => s' = s ∧ s.role = .bob ∧ s.state = .pricClaimed
  | _, _ => False

/-- The refund of the swap's coin is tried at this step. -/
def Phase.Refunds : Phase → Leg → AdaptorSwap → Prop
  | .refundLtc (s :: _), leg, s' => leg = .ltc ∧ s' = s
  | .refundBtc (s :: _), leg, s' => leg = .btc ∧ s' = s
  | .refundPric _ (s :: _), leg, s' => leg = .pric ∧ s' = s
  | _, _, _ => False

/-- The backend does not answer what is asked at this step. -/
def Phase.Unanswered : Phase → Prop
  | .detect (_ :: _) => turn.outspend = none
  | .refundLtc (_ :: _) => turn.tip = none
  | .refundBtc (_ :: _) => turn.tip = none
  | _ => False

/-- A relation that holds over all that the watcher does in a phase, entries apart. -/
structure Moves (phase : Phase) (R : Watcher → Watcher → Prop) : Prop where
  trans : ∀ {w w' w''}, R w w' → R w' w'' → R w w''
  look : ∀ w c, Looks decodeTx seals turn w.swaps c → R w { w with swaps := c }
  goto : ∀ w phase', R w { w with phase := phase' }
  clear : phase = .idle → ∀ w, R w { w with broadcasts := [] }
  fail : phase.Unanswered turn → ∀ w chain, R w (recordChainError chain turn.now w)
  log : ∀ {leg s}, phase.Refunds leg s → ∀ w tx,
    R w { w with broadcasts := ⟨leg, s.swapId, tx⟩ :: w.broadcasts }
  attempt : ∀ {leg s}, phase.Refunds leg s → ∀ w,
    R w { w with attempted := Function.update w.attempted leg (s.swapId :: w.attempted leg) }
  detect : ∀ {s os}, phase.Detects s → turn.outspend = some os → os.spent = true → ∀ w,
    R w { w with
      pending := (add lib.digest turn.addEnv turn.unixTime
        ⟨s.swapId, .foreignClaim, os.spendingTxid, -1, 1, turn.unixTime⟩ w.pending).2
      detected := (s.swapId, os.spendingTxid) :: w.detected }
  watch : ∀ {leg s txid}, phase.Refunds leg s → leg ≠ .pric → turn.broadcast = some txid → ∀ w,
    R w { w with
      pending := (add lib.digest turn.addEnv turn.unixTime
        ⟨s.swapId, .foreignRefund, txid, 0, 1, 0⟩ w.pending).2
      refundTxids := (s.swapId, txid) :: w.refundTxids }
  add : ∀ w e, e.kind ≠ .foreignRefund →
    R w { w with pending := (add lib.digest turn.addEnv turn.unixTime e w.pending).2 }

variable {decodeTx seals lib turn} {phase : Phase} {R : Watcher → Watcher → Prop}

namespace Moves

section

variable (h : Moves decodeTx seals lib turn phase R)
include h

theorem refl (w : Watcher) : R w w :=
  h.goto w w.phase

theorem ite {p : Prop} [Decidable p] {w' : Watcher} (hw' : R w w') : R w (if p then w else w') := by
  split
  · exact h.refl w
  · exact hw'

theorem broadcastForeign {leg : Leg} (hs : phase.Refunds leg s) (hleg : leg ≠ .pric) (tx : Text)
    (w : Watcher) : R w (broadcastForeign lib turn leg s.swapId tx w).2 := by
  have hlog := h.log hs w tx
  unfold ChainWatcher.broadcastForeign
  split
  · exact h.refl w
  · simp only
    split
    · exact hlog
    · rename_i txid htxid
      exact h.trans hlog (h.watch hs hleg htxid _)

theorem broadcastPric (hs : phase.Refunds .pric s) (tx : Text × Text) (w : Watcher) :
    R w (broadcastPric lib turn s.swapId tx w).2 := by
  have hlog := h.log hs w tx.1
  unfold ChainWatcher.broadcastPric
  simp only
  split
  · exact hlog
  · exact h.trans hlog (h.add _ _ nofun)

theorem autoBroadcast {α : Type} (swapId : Uint256) {build : AdaptorSwap → Option α}
    {broadcast : α → Watcher → Bool × Watcher} (hbroadcast : ∀ tx w, R w (broadcast tx w).2)
    (w : Watcher) : R w (autoBroadcast decodeTx seals turn swapId build broadcast w).2 := by
  unfold ChainWatcher.autoBroadcast
  split
  · rename_i hget
    exact h.look w _ (.inl ⟨_, _, hget⟩)
  · rename_i hget
    split
    · exact h.look w _ (.inl ⟨_, _, hget⟩)
    · exact h.trans (h.look w _ (.inl ⟨_, _, hget⟩)) (hbroadcast _ _)
  · rename_i hget
    exact h.look w _ (.inl ⟨_, _, hget⟩)

theorem noteAttempt {leg : Leg} (hs : phase.Refunds leg s) {result : Option Bool × Watcher}
    (hresult : R w result.2) : R w (noteAttempt leg s.swapId result).2 := by
  unfold ChainWatcher.noteAttempt
  split
  · exact hresult
  · exact hresult
  · exact h.trans hresult (h.attempt hs _)

theorem tryAutoRefundForeign {leg : Leg} {chain : Text} {wanted : AdaptorSwap → Bool}
    {broadcast : Turn ι → Uint256 → Watcher → Option Bool × Watcher} (hs : phase.Refunds leg s)
    (hasked : turn.tip = none → phase.Unanswered turn)
    (hbroadcast : ∀ w, R w (broadcast turn s.swapId w).2) (w : Watcher) :
    R w (tryAutoRefundForeign leg chain wanted broadcast turn s w).2 := by
  unfold ChainWatcher.tryAutoRefundForeign
  split_ifs
  · exact h.refl w
  · exact h.refl w
  · exact h.refl w
  · exact h.refl w
  · split
    · rename_i htip
      exact h.fail (hasked htip) w chain
    · split
      · exact h.refl w
      · exact h.noteAttempt hs (hbroadcast w)

end

theorem tryAutoRefundLtc (h : Moves decodeTx seals lib turn (.refundLtc (s :: queue)) R)
    (dest : Text) (w : Watcher) : R w (tryAutoRefundLtc decodeTx seals lib dest turn s w).2 :=
  h.tryAutoRefundForeign ⟨rfl, rfl⟩ id
    (h.autoBroadcast s.swapId (h.broadcastForeign ⟨rfl, rfl⟩ nofun)) w

theorem tryAutoRefundBtc (h : Moves decodeTx seals lib turn (.refundBtc (s :: queue)) R)
    (w : Watcher) : R w (tryAutoRefundBtc decodeTx seals lib turn s w).2 :=
  h.tryAutoRefundForeign ⟨rfl, rfl⟩ id
    (h.autoBroadcast s.swapId (h.broadcastForeign ⟨rfl, rfl⟩ nofun)) w

theorem tryAutoRefundPric {tip : Int32}
    (h : Moves decodeTx seals lib turn (.refundPric tip (s :: queue)) R) (w : Watcher) :
    R w (tryAutoRefundPric decodeTx seals lib tip turn s w).2 := by
  unfold ChainWatcher.tryAutoRefundPric
  split_ifs
  · exact h.refl w
  · exact h.refl w
  · exact h.refl w
  · exact h.noteAttempt ⟨rfl, rfl⟩ (h.autoBroadcast s.swapId (h.broadcastPric ⟨rfl, rfl⟩) w)

theorem tryAutoDetectForeignClaim (h : Moves decodeTx seals lib turn (.detect (s :: queue)) R)
    (w : Watcher) : R w (tryAutoDetectForeignClaim lib turn s w) := by
  unfold ChainWatcher.tryAutoDetectForeignClaim
  by_cases hrole : s.role = .bob
  swap
  · rw [if_pos hrole]
    exact h.refl w
  by_cases hstate : s.state = .pricClaimed
  swap
  · rw [if_neg (not_not.mpr hrole), if_pos hstate]
    exact h.refl w
  iterate 7 refine h.ite ?_
  cases hos : turn.outspend with
  | none => exact h.fail hos w _
  | some os =>
    have hadd := h.add w ⟨s.swapId, .foreignClaim, os.spendingTxid, -1, 1, turn.unixTime⟩ nofun
    by_cases hspent : os.spent = true
    swap
    · simp only [hspent, Bool.not_false, if_true]
      exact h.refl w
    have hdetect := h.detect (s := s) ⟨rfl, hrole, hstate⟩ hos hspent w
    iterate 2 refine h.ite ?_
    split
    · rename_i hresult
      rw [hresult] at hdetect
      exact hdetect
    · rename_i hresult
      rw [hresult] at hadd
      exact hadd

theorem goOn (h : Moves decodeTx seals lib turn phase R) (phase' : Phase)
    {result : Bool × Watcher} (hresult : R w result.2) : R w (goOn phase' result) := by
  unfold ChainWatcher.goOn
  split
  · exact h.trans hresult (h.goto _ _)
  · exact h.trans hresult (h.goto _ _)

theorem startPass (h : Moves decodeTx seals lib turn phase R)
    (pass : List AdaptorSwap → Phase) (w : Watcher) :
    R w (startPass decodeTx seals pass turn w) := by
  unfold ChainWatcher.startPass
  split
  all_goals
    rename_i hlist
    exact h.trans (h.look w _ (.inr ⟨_, hlist⟩)) (h.goto _ _)

end Moves

/-- What the watcher does at a step at which it does not handle an entry. -/
theorem Moves.next {cfg : Config} (h : Moves decodeTx seals lib turn w.phase R)
    (hphase : ∀ e queue, w.phase ≠ .entries (e :: queue)) :
    R w (next decodeTx seals lib cfg turn w) := by
  unfold ChainWatcher.next
  split
  · rename_i hidle
    split
    · exact h.trans (h.clear hidle w) (h.goto _ _)
    · exact h.refl w
  · rename_i e queue hentries
    exact absurd hentries (hphase e queue)
  · exact h.startPass _ w
  · rename_i hqueue
    rw [hqueue] at h
    exact h.trans (h.tryAutoDetectForeignClaim w) (h.goto _ _)
  · split
    · exact h.goto w _
    · exact h.startPass _ w
  · rename_i hqueue
    rw [hqueue] at h
    exact h.goOn _ (h.tryAutoRefundLtc _ w)
  · split
    · exact h.goto w _
    · exact h.startPass _ w
  · rename_i hqueue
    rw [hqueue] at h
    exact h.goOn _ (h.tryAutoRefundBtc w)
  · split
    · exact h.goto w _
    · split
      · exact h.trans (h.startPass _ w) (h.goto _ _)
      · exact h.startPass _ w
  · rename_i hqueue
    rw [hqueue] at h
    exact h.goOn _ (h.tryAutoRefundPric w)
  · exact h.goto w _

end Passes

section Calls

variable (decodeTx : Text → Option Uint256) (seals : Sealing ι)

/-- The second wallet comes from the first by calls. -/
def Calls (c c' : Wallet) : Prop :=
  ∃ events : List (AdaptorSwaps.Event ι), (∀ event ∈ events, event ≠ .restart) ∧
    c' = events.foldl (AdaptorSwaps.step decodeTx seals) c

variable {decodeTx seals}
variable {env : Env ι}

theorem Calls.refl (c : Wallet) : Calls decodeTx seals c c := ⟨[], by simp, rfl⟩

theorem Calls.trans {c'' : Wallet} (h : Calls decodeTx seals c c')
    (h' : Calls decodeTx seals c' c'') : Calls decodeTx seals c c'' := by
  obtain ⟨events, hevents, rfl⟩ := h
  obtain ⟨events', hevents', rfl⟩ := h'
  refine ⟨events ++ events', fun event hevent => ?_, foldl_append.symm⟩
  rcases mem_append.mp hevent with hevent | hevent
  · exact hevents event hevent
  · exact hevents' event hevent

theorem calls_step (event : AdaptorSwaps.Event ι) (hevent : event ≠ .restart)
    (h : AdaptorSwaps.step decodeTx seals c event = c') : Calls decodeTx seals c c' := by
  subst h
  exact ⟨[event], fun _ hmem => mem_singleton.mp hmem ▸ hevent, rfl⟩

theorem calls_get {swapId : Uint256} {result : Option (LookupResult AdaptorSwap)}
    (h : get decodeTx seals env swapId c = (result, c')) : Calls decodeTx seals c c' :=
  calls_step (.get env swapId) nofun (congrArg Prod.snd h)

theorem calls_list {result : Option (LookupResult (Uint256 → Option AdaptorSwap))}
    (h : list decodeTx seals env c = (result, c')) : Calls decodeTx seals c c' :=
  calls_step (.list env) nofun (congrArg Prod.snd h)

theorem calls_call {swapId : Uint256} {t : Transition} {result : Option TransitionResult}
    (h : call decodeTx seals env swapId t c = (result, c')) : Calls decodeTx seals c c' :=
  calls_step (.call env swapId t) nofun (congrArg Prod.snd h)

/-- What the handling of an entry does: it looks a swap up, notes an error or calls a setter. -/
theorem handleEntry_rel {R : Watcher → Watcher → Prop} {turn : Turn ι}
    (htrans : ∀ {w w' w''}, R w w' → R w' w'' → R w w'')
    (hcalls : ∀ w c, Calls decodeTx seals w.swaps c → R w { w with swaps := c })
    (hnote : ∀ w chain, R w (recordChainError chain turn.now w)) (e : WatchEntry) (w : Watcher) :
    R w (handleEntry decodeTx seals turn e w).2 := by
  have happly : ∀ status w, R w (applyTransition decodeTx seals turn e status w).2 := by
    intro status w
    unfold applyTransition
    split
    · exact hcalls w _ (.refl _)
    · split
      · exact hcalls w _ (.refl _)
      · split
        · rename_i hcall
          exact hcalls w _ (calls_call hcall)
        · rename_i hcall
          exact hcalls w _ (calls_call hcall)
  unfold handleEntry
  split
  · split
    · rename_i hget
      exact hcalls w _ (calls_get hget)
    · rename_i hget
      refine htrans (hcalls w _ (calls_get hget)) ?_
      simp only
      split_ifs
      · exact hcalls _ _ (.refl _)
      · exact hcalls _ _ (.refl _)
      · split
        · exact hnote _ _
        · exact happly _ _
    · rename_i hget
      exact hcalls w _ (calls_get hget)
  · split
    · exact hcalls w _ (.refl _)
    · exact happly _ _

theorem calls_handleNext {lib : Library} (turn : Turn ι) (e : WatchEntry)
    (queue : List WatchEntry) (w : Watcher) :
    Calls decodeTx seals w.swaps (handleNext decodeTx seals lib turn e queue w).swaps := by
  have hcalls : Calls decodeTx seals w.swaps
      (handleEntry decodeTx seals turn e w).2.swaps := by
    refine handleEntry_rel (R := fun w w' => Calls decodeTx seals w.swaps w'.swaps)
      Calls.trans ?_ ?_ e w
    · exact fun _ _ h => h
    · exact fun w _ => .refl w.swaps
  unfold handleNext
  split
  all_goals
    rename_i hentry
    rw [hentry] at hcalls
    exact hcalls

/-- The watcher changes swaps by calls only. -/
theorem calls_next (decodeTx : Text → Option Uint256) (seals : Sealing ι) (lib : Library)
    (cfg : Config) (turn : Turn ι) (w : Watcher) :
    Calls decodeTx seals w.swaps (next decodeTx seals lib cfg turn w).swaps := by
  by_cases hphase : ∃ e queue, w.phase = .entries (e :: queue)
  · obtain ⟨e, queue, hphase⟩ := hphase
    simp only [next, hphase]
    exact calls_handleNext turn e queue w
  · have hmoves : Moves decodeTx seals lib turn w.phase
        fun w w' => Calls decodeTx seals w.swaps w'.swaps :=
      { trans := Calls.trans
        look := fun _ _ hlook => by
          rcases hlook with ⟨swapId, result, hget⟩ | ⟨result, hlist⟩
          · exact calls_get hget
          · exact calls_list hlist
        goto := fun w _ => .refl w.swaps
        clear := fun _ w => .refl w.swaps
        fail := fun _ w _ => .refl w.swaps
        log := fun _ w _ => .refl w.swaps
        attempt := fun _ w => .refl w.swaps
        detect := fun _ _ _ w => .refl w.swaps
        watch := fun _ _ _ w => .refl w.swaps
        add := fun w _ _ => .refl w.swaps }
    exact hmoves.next fun e queue hq => hphase ⟨e, queue, hq⟩

theorem swaps_step {lib : Library} {cfg : Config} (w : Watcher) (event : AdaptorSwaps.Event ι) :
    (step decodeTx seals lib cfg w (.swaps event)).swaps =
      AdaptorSwaps.step decodeTx seals w.swaps event := by
  cases event <;> rfl

/-- The swaps of a run are those of a run of calls. -/
theorem swaps_run (decodeTx : Text → Option Uint256) (seals : Sealing ι) (lib : Library)
    (cfg : Config) (events : List (Event ι)) :
    ∃ calls : List (AdaptorSwaps.Event ι),
      (run decodeTx seals lib cfg events).swaps = AdaptorSwaps.run decodeTx seals calls := by
  induction events using List.reverseRecOn with
  | nil => exact ⟨[], rfl⟩
  | append_singleton events event ih =>
    obtain ⟨calls, hcalls⟩ := ih
    have hrun : run decodeTx seals lib cfg (events ++ [event]) =
        step decodeTx seals lib cfg (run decodeTx seals lib cfg events) event :=
      foldl_append
    have happend : ∀ more : List (AdaptorSwaps.Event ι),
        more.foldl (AdaptorSwaps.step decodeTx seals)
          (run decodeTx seals lib cfg events).swaps =
        AdaptorSwaps.run decodeTx seals (calls ++ more) := by
      intro more
      rw [hcalls]
      exact foldl_append.symm
    rw [hrun]
    cases event with
    | swaps event =>
      exact ⟨calls ++ [event], (swaps_step _ event).trans (happend [event])⟩
    | addWatch => exact ⟨calls, hcalls⟩
    | removeWatch => exact ⟨calls, hcalls⟩
    | next turn =>
      obtain ⟨more, -, hmore⟩ := calls_next decodeTx seals lib cfg turn
        (run decodeTx seals lib cfg events)
      exact ⟨calls ++ more, hmore.trans (happend more)⟩

end Calls

end Pricoin.ChainWatcher
