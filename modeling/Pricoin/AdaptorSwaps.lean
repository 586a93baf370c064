import Pricoin.Checks
import Pricoin.DurableRecords
import Pricoin.JointStealth

/-!
The wallet's records of adaptor swaps. A record is created once and is then changed by
setters, each with its own check of the state. The records are kept in the wallet's
database with a copy in memory, and a change that is refused or cannot be written
leaves both as they were.
-/
namespace Pricoin.AdaptorSwaps

open ByteStreams Codecs Codec KeyImageFile RecordCodecs DurableRecords Checks JointStealth

section Records

/-- The bytes of a string. -/
abbrev Text := List UInt8

inductive State where
  | setup
  | adaptorReady
  | btcFunded
  | bothFunded
  | preSigned
  | pricClaimed
  | complete
  | refunded
  | aborted
  deriving DecidableEq

inductive Role where
  | alice
  | bob
  deriving DecidableEq

def btc : Text := ascii "btc"

def ltc : Text := ascii "ltc"

def regtest : Text := ascii "regtest"

structure AdaptorSwapPreSigs where
  btcClaimPresig : List UInt8
  btcClaimSession : List UInt8
  btcClaimNonceParity : Int32
  pricClaimPresigBlob : List UInt8
  btcRefundSig : List UInt8
  pricRefundSigBlob : List UInt8
  deriving DecidableEq

def AdaptorSwapPreSigs.isComplete (p : AdaptorSwapPreSigs) (foreignChain : Text) : Bool :=
  if p.pricClaimPresigBlob = [] ∨ p.pricRefundSigBlob = [] then false
  else if foreignChain = ltc then true
  else p.btcClaimPresig ≠ [] ∧ p.btcClaimSession ≠ [] ∧ p.btcRefundSig ≠ []

structure AdaptorSwap where
  swapId : Uint256
  role : Role
  state : State
  /-- The bytes of a compressed key. -/
  counterpartyPub : Bytes 33
  foreignChain : Text
  foreignAmountSat : Int64
  foreignFundingTxid : Text
  foreignFundingVout : Int32
  foreignFundingHeight : Int32
  foreignClaimTxid : Text
  foreignRefundTxid : Text
  pricJointStealthAddress : Text
  pricAmountSat : Int64
  pricFundingTxid : Uint256
  pricFundingVout : Int32
  pricFundingHeight : Int32
  pricClaimTxid : Uint256
  pricRefundTxid : Uint256
  T_G : Bytes 33
  T_H : Bytes 33
  dleqProofBlob : List UInt8
  adaptorSet : Bool
  tSecret : Bytes 32
  hasT : Bool
  pricRefundHeight : Int32
  foreignRefundHeight : Int32
  deltaMinBlocks : Int32
  timelocksSet : Bool
  presigs : AdaptorSwapPreSigs
  memo : Text
  createdTime : Int64
  updatedTime : Int64
  abortReason : Text
  btcAliceRecipientXonlyHex : Text
  btcBobRecipientXonlyHex : Text
  pricAliceRecipientStealth : Text
  pricBobRecipientStealth : Text
  pricClaimRing : List (Bytes 33)
  pricEphemeralR : Bytes 32
  hasPricEphemeralR : Bool
  pricRefundUnsignedTxHex : Text
  peerViewPubkeyHex : Text
  peerSpendPubkeyHex : Text
  btcRefundUnsignedTxHex : Text
  pricClaimAdaptorSessionJson : Text
  pricRefundSessionJson : Text
  btcClaimAdaptorSessionJson : Text
  btcRefundSessionJson : Text
  pricFundingUnsignedTxHex : Text
  pricFundingPlannedVout : Int32
  pricClaimRingW : List (Bytes 33)
  pricClaimMsgHex : Text
  pricClaimPi : Int32
  pricClaimUnsignedTxHex : Text
  btcFundingUnsignedTxHex : Text
  btcFundingPlannedTxid : Text
  btcFundingPlannedVout : Int32
  btcClaimUnsignedTxHex : Text
  deriving DecidableEq

end Records

section Serialization

def Role.toByte : Role → UInt8
  | .alice => 0
  | .bob => 1

/-- No other bytes are written. -/
def Role.ofByte (b : UInt8) : Role := if b = 0 then .alice else .bob

def State.toByte : State → UInt8
  | .setup => 0
  | .adaptorReady => 1
  | .btcFunded => 2
  | .bothFunded => 3
  | .preSigned => 4
  | .pricClaimed => 5
  | .complete => 6
  | .refunded => 7
  | .aborted => 8

/-- No bytes above the last one are written. -/
def State.ofByte (b : UInt8) : State :=
  match b with
  | 0 => .setup
  | 1 => .adaptorReady
  | 2 => .btcFunded
  | 3 => .bothFunded
  | 4 => .preSigned
  | 5 => .pricClaimed
  | 6 => .complete
  | 7 => .refunded
  | _ => .aborted

def roleCodec : Codec Role := byte.via Role.toByte Role.ofByte

theorem fits_roleCodec : Fits roleCodec := fits_byte.via fun role => by cases role <;> rfl

def stateCodec : Codec State := byte.via State.toByte State.ofByte

theorem fits_stateCodec : Fits stateCodec := fits_byte.via fun state => by cases state <;> rfl

def ringCodec : Codec (List (Bytes 33)) := vector maxSize (block 33)

theorem fits_ringCodec : Fits ringCodec := by
  refine fits_vector (fits_block 33) fun b => ?_
  have hlen : ((block 33).write b).length = 33 := b.toList_length
  omega

def presigsCodec : Codec AdaptorSwapPreSigs :=
  (bytes.pair (bytes.pair (sint32.pair (bytes.pair (bytes.pair bytes))))).via
    (fun p => (p.btcClaimPresig, p.btcClaimSession, p.btcClaimNonceParity, p.pricClaimPresigBlob,
      p.btcRefundSig, p.pricRefundSigBlob))
    (fun p => ⟨p.1, p.2.1, p.2.2.1, p.2.2.2.1, p.2.2.2.2.1, p.2.2.2.2.2⟩)

theorem fits_presigsCodec : Fits presigsCodec :=
  (fits_bytes.pair (fits_bytes.pair (fits_sint32.pair (fits_bytes.pair
    (fits_bytes.pair fits_bytes))))).via fun _ => rfl

/-- The parts of a record in the order in which they are written. -/
abbrev Parts :=
  (Uint256 × Role × State × Bytes 33) ×
  (Text × Int64 × Text × Int32 × Int32 × Text × Text) ×
  (Text × Int64 × Uint256 × Int32 × Int32 × Uint256 × Uint256) ×
  (Bytes 33 × Bytes 33 × List UInt8 × Bool × Bytes 32 × Bool) ×
  (Int32 × Int32 × Int32 × Bool × AdaptorSwapPreSigs) ×
  (Text × Int64 × Int64 × Text × Text × Text × Text × Text) ×
  (List (Bytes 33) × Bytes 32 × Bool × Text × Text × Text × Text) ×
  (Text × Text × Text × Text × Text × Int32 × List (Bytes 33)) ×
  (Text × Int32 × Text × Text × Text × Int32 × Text)

def AdaptorSwap.parts (s : AdaptorSwap) : Parts :=
  ((s.swapId, s.role, s.state, s.counterpartyPub),
   (s.foreignChain, s.foreignAmountSat, s.foreignFundingTxid, s.foreignFundingVout,
    s.foreignFundingHeight, s.foreignClaimTxid, s.foreignRefundTxid),
   (s.pricJointStealthAddress, s.pricAmountSat, s.pricFundingTxid, s.pricFundingVout,
    s.pricFundingHeight, s.pricClaimTxid, s.pricRefundTxid),
   (s.T_G, s.T_H, s.dleqProofBlob, s.adaptorSet, s.tSecret, s.hasT),
   (s.pricRefundHeight, s.foreignRefundHeight, s.deltaMinBlocks, s.timelocksSet, s.presigs),
   (s.memo, s.createdTime, s.updatedTime, s.abortReason, s.btcAliceRecipientXonlyHex,
    s.btcBobRecipientXonlyHex, s.pricAliceRecipientStealth, s.pricBobRecipientStealth),
   (s.pricClaimRing, s.pricEphemeralR, s.hasPricEphemeralR, s.pricRefundUnsignedTxHex,
    s.peerViewPubkeyHex, s.peerSpendPubkeyHex, s.btcRefundUnsignedTxHex),
   (s.pricClaimAdaptorSessionJson, s.pricRefundSessionJson, s.btcClaimAdaptorSessionJson,
    s.btcRefundSessionJson, s.pricFundingUnsignedTxHex, s.pricFundingPlannedVout,
    s.pricClaimRingW),
   (s.pricClaimMsgHex, s.pricClaimPi, s.pricClaimUnsignedTxHex, s.btcFundingUnsignedTxHex,
    s.btcFundingPlannedTxid, s.btcFundingPlannedVout, s.btcClaimUnsignedTxHex))

def AdaptorSwap.ofParts : Parts → AdaptorSwap
  | ((swapId, role, state, counterpartyPub),
     (foreignChain, foreignAmountSat, foreignFundingTxid, foreignFundingVout,
      foreignFundingHeight, foreignClaimTxid, foreignRefundTxid),
     (pricJointStealthAddress, pricAmountSat, pricFundingTxid, pricFundingVout,
      pricFundingHeight, pricClaimTxid, pricRefundTxid),
     (T_G, T_H, dleqProofBlob, adaptorSet, tSecret, hasT),
     (pricRefundHeight, foreignRefundHeight, deltaMinBlocks, timelocksSet, presigs),
     (memo, createdTime, updatedTime, abortReason, btcAliceRecipientXonlyHex,
      btcBobRecipientXonlyHex, pricAliceRecipientStealth, pricBobRecipientStealth),
     (pricClaimRing, pricEphemeralR, hasPricEphemeralR, pricRefundUnsignedTxHex,
      peerViewPubkeyHex, peerSpendPubkeyHex, btcRefundUnsignedTxHex),
     (pricClaimAdaptorSessionJson, pricRefundSessionJson, btcClaimAdaptorSessionJson,
      btcRefundSessionJson, pricFundingUnsignedTxHex, pricFundingPlannedVout, pricClaimRingW),
     (pricClaimMsgHex, pricClaimPi, pricClaimUnsignedTxHex, btcFundingUnsignedTxHex,
      btcFundingPlannedTxid, btcFundingPlannedVout, btcClaimUnsignedTxHex)) =>
    { swapId, role, state, counterpartyPub, foreignChain, foreignAmountSat, foreignFundingTxid,
      foreignFundingVout, foreignFundingHeight, foreignClaimTxid, foreignRefundTxid,
      pricJointStealthAddress, pricAmountSat, pricFundingTxid, pricFundingVout,
      pricFundingHeight, pricClaimTxid, pricRefundTxid, T_G, T_H, dleqProofBlob, adaptorSet,
      tSecret, hasT, pricRefundHeight, foreignRefundHeight, deltaMinBlocks, timelocksSet,
      presigs, memo, createdTime, updatedTime, abortReason, btcAliceRecipientXonlyHex,
      btcBobRecipientXonlyHex, pricAliceRecipientStealth, pricBobRecipientStealth,
      pricClaimRing, pricEphemeralR, hasPricEphemeralR, pricRefundUnsignedTxHex,
      peerViewPubkeyHex, peerSpendPubkeyHex, btcRefundUnsignedTxHex,
      pricClaimAdaptorSessionJson, pricRefundSessionJson, btcClaimAdaptorSessionJson,
      btcRefundSessionJson, pricFundingUnsignedTxHex, pricFundingPlannedVout, pricClaimRingW,
      pricClaimMsgHex, pricClaimPi, pricClaimUnsignedTxHex, btcFundingUnsignedTxHex,
      btcFundingPlannedTxid, btcFundingPlannedVout, btcClaimUnsignedTxHex }

def partsCodec : Codec Parts :=
  ((block 32).pair (roleCodec.pair (stateCodec.pair (block 33)))).pair <|
  (bytes.pair (sint64.pair (bytes.pair (sint32.pair (sint32.pair (bytes.pair bytes)))))).pair <|
  (bytes.pair (sint64.pair ((block 32).pair (sint32.pair (sint32.pair
    ((block 32).pair (block 32))))))).pair <|
  ((block 33).pair ((block 33).pair (bytes.pair (bool.pair
    ((block 32).pair bool))))).pair <|
  (sint32.pair (sint32.pair (sint32.pair (bool.pair presigsCodec)))).pair <|
  (bytes.pair (sint64.pair (sint64.pair (bytes.pair (bytes.pair (bytes.pair
    (bytes.pair bytes))))))).pair <|
  (ringCodec.pair ((block 32).pair (bool.pair (bytes.pair (bytes.pair
    (bytes.pair bytes)))))).pair <|
  (bytes.pair (bytes.pair (bytes.pair (bytes.pair (bytes.pair
    (sint32.pair ringCodec)))))).pair <|
  bytes.pair (sint32.pair (bytes.pair (bytes.pair (bytes.pair (sint32.pair bytes)))))

theorem fits_partsCodec : Fits partsCodec :=
  ((fits_block 32).pair (fits_roleCodec.pair (fits_stateCodec.pair (fits_block 33)))).pair <|
  (fits_bytes.pair (fits_sint64.pair (fits_bytes.pair (fits_sint32.pair (fits_sint32.pair
    (fits_bytes.pair fits_bytes)))))).pair <|
  (fits_bytes.pair (fits_sint64.pair ((fits_block 32).pair (fits_sint32.pair (fits_sint32.pair
    ((fits_block 32).pair (fits_block 32))))))).pair <|
  ((fits_block 33).pair ((fits_block 33).pair (fits_bytes.pair (fits_bool.pair
    ((fits_block 32).pair fits_bool))))).pair <|
  (fits_sint32.pair (fits_sint32.pair (fits_sint32.pair (fits_bool.pair
    fits_presigsCodec)))).pair <|
  (fits_bytes.pair (fits_sint64.pair (fits_sint64.pair (fits_bytes.pair (fits_bytes.pair
    (fits_bytes.pair (fits_bytes.pair fits_bytes))))))).pair <|
  (fits_ringCodec.pair ((fits_block 32).pair (fits_bool.pair (fits_bytes.pair (fits_bytes.pair
    (fits_bytes.pair fits_bytes)))))).pair <|
  (fits_bytes.pair (fits_bytes.pair (fits_bytes.pair (fits_bytes.pair (fits_bytes.pair
    (fits_sint32.pair fits_ringCodec)))))).pair <|
  fits_bytes.pair (fits_sint32.pair (fits_bytes.pair (fits_bytes.pair (fits_bytes.pair
    (fits_sint32.pair fits_bytes)))))

def swapCodec : Codec AdaptorSwap := partsCodec.via AdaptorSwap.parts AdaptorSwap.ofParts

theorem fits_swapCodec : Fits swapCodec := fits_partsCodec.via fun _ => rfl

end Serialization

section Setters

inductive TimelockCheck where
  | ok
  | pricNotPositive
  | foreignNotPositive
  | deltaMinNotPositive
  | orderingViolation
  | deltaTooSmall
  deriving DecidableEq

def validateRefundTimelocks (pricRefundHeight foreignRefundHeight deltaMinBlocks : Int32) :
    TimelockCheck :=
  if pricRefundHeight ≤ 0 then .pricNotPositive
  else if foreignRefundHeight ≤ 0 then .foreignNotPositive
  else if deltaMinBlocks ≤ 0 then .deltaMinNotPositive
  else if foreignRefundHeight ≤ pricRefundHeight then .orderingViolation
  else if foreignRefundHeight - pricRefundHeight < deltaMinBlocks then .deltaTooSmall
  else .ok

inductive TransitionResult where
  | ok
  | notFound
  | invalidState
  | invalidInput
  | invalidTimelocks
  | locked
  | writeFailed
  deriving DecidableEq

/-- A setter checks its input before the record is looked up. What it does to the record is
undone when it ends in an error. -/
structure Setter where
  check : Except TransitionResult Unit
  mutate : AdaptorSwap → Except TransitionResult AdaptorSwap

def State.terminal (state : State) : Bool :=
  state = .complete ∨ state = .refunded ∨ state = .aborted

/-- A record that is set up goes on to the next state when nothing is missing. -/
def recomputeAdaptorReady (s : AdaptorSwap) : AdaptorSwap :=
  if s.state ≠ .setup then s
  else if !s.adaptorSet then s
  else if !s.timelocksSet then s
  else if validateRefundTimelocks s.pricRefundHeight s.foreignRefundHeight s.deltaMinBlocks ≠ .ok
  then s
  else { s with state := .adaptorReady }

/-- Bob gives his secret, and no one else does. -/
def recordSecret (tSecretForBob : Option (Bytes 32)) (s : AdaptorSwap) :
    Except TransitionResult AdaptorSwap :=
  match s.role, tSecretForBob with
  | .bob, some t => .ok { s with tSecret := t, hasT := true }
  | .bob, none => .error .invalidInput
  | .alice, some _ => .error .invalidInput
  | .alice, none => .ok s

def setAdaptorMaterials (T_G T_H : Bytes 33) (dleqProofBlob : List UInt8)
    (tSecretForBob : Option (Bytes 32)) : Setter where
  check := rejectIf (dleqProofBlob = []) .invalidInput
  mutate s := do
    rejectIf (s.state ≠ .setup) .invalidState
    let s ← recordSecret tSecretForBob
      { s with T_G := T_G, T_H := T_H, dleqProofBlob := dleqProofBlob, adaptorSet := true }
    return recomputeAdaptorReady s

def setPricEphemeralR (r : Bytes 32) : Setter where
  check := .ok ()
  mutate s := do
    rejectIf s.state.terminal .invalidState
    return { s with pricEphemeralR := r, hasPricEphemeralR := true }

def setRefundTimelocks (pricRefundHeight foreignRefundHeight deltaMinBlocks : Int32) :
    Setter where
  check := rejectIf
    (validateRefundTimelocks pricRefundHeight foreignRefundHeight deltaMinBlocks ≠ .ok)
    .invalidTimelocks
  mutate s := do
    rejectIf (s.state ≠ .setup) .invalidState
    return recomputeAdaptorReady
      { s with
        pricRefundHeight := pricRefundHeight
        foreignRefundHeight := foreignRefundHeight
        deltaMinBlocks := deltaMinBlocks
        timelocksSet := true }

def setBtcFunded (foreignFundingTxid : Text)
    (foreignFundingVout foreignFundingHeight : Int32) : Setter where
  check := rejectIf (foreignFundingTxid = [] ∨ foreignFundingVout < 0 ∨ foreignFundingHeight ≤ 0)
    .invalidInput
  mutate s := do
    rejectIf (s.state ≠ .adaptorReady ∧ s.state ≠ .preSigned) .invalidState
    rejectIf (!s.presigs.isComplete s.foreignChain) .invalidState
    return { s with
      foreignFundingTxid := foreignFundingTxid
      foreignFundingVout := foreignFundingVout
      foreignFundingHeight := foreignFundingHeight
      state := .btcFunded }

def setPricFunded (pricFundingTxid : Uint256) (pricFundingVout pricFundingHeight : Int32) :
    Setter where
  check := rejectIf (pricFundingTxid = nullHash ∨ pricFundingVout < 0 ∨ pricFundingHeight ≤ 0)
    .invalidInput
  mutate s := do
    rejectIf (s.state ≠ .btcFunded) .invalidState
    return { s with
      pricFundingTxid := pricFundingTxid
      pricFundingVout := pricFundingVout
      pricFundingHeight := pricFundingHeight
      state := .bothFunded }

def setPreSigned (presigs : AdaptorSwapPreSigs) : Setter where
  check := .ok ()
  mutate s := do
    rejectIf (s.state ≠ .adaptorReady) .invalidState
    rejectIf (!presigs.isComplete s.foreignChain) .invalidInput
    rejectIf (s.foreignChain ≠ ltc ∧ presigs.btcClaimPresig.length ≠ 64) .invalidInput
    rejectIf (s.foreignChain ≠ ltc ∧ presigs.btcClaimSession.length ≠ 133) .invalidInput
    rejectIf (s.foreignChain ≠ ltc ∧ presigs.btcRefundSig.length ≠ 64) .invalidInput
    return { s with presigs := presigs, state := .preSigned }

/-- The secret is public now. -/
def wipeSecret (s : AdaptorSwap) : AdaptorSwap :=
  { s with tSecret := .replicate 32 0, hasT := false }

def setPricClaimed (pricClaimTxid : Uint256) : Setter where
  check := rejectIf (pricClaimTxid = nullHash) .invalidInput
  mutate s := do
    rejectIf (s.state ≠ .bothFunded) .invalidState
    let s := { s with pricClaimTxid := pricClaimTxid }
    let s := if s.role = .bob then wipeSecret s else s
    return { s with state := .pricClaimed }

/-- The state is not checked. -/
def setTSecret (t : Bytes 32) : Setter where
  check := .ok ()
  mutate s :=
    if s.hasT then if s.tSecret = t then .ok s else .error .invalidInput
    else .ok { s with tSecret := t, hasT := true }

/-- Take over a value that is supplied, unless another one is there. -/
def supply {α : Type} [DecidableEq α] (supplied present : α → Bool) (new old : α) :
    Except TransitionResult α :=
  if !supplied new then .ok old
  else if present old ∧ old ≠ new then .error .invalidInput
  else .ok new

def nonempty {α : Type} (l : List α) : Bool := !l.isEmpty

/-- The state is not checked. -/
def setPricClaimRing (ring ringW : List (Bytes 33)) (msgHex : Text) (pi : Int32)
    (unsignedTxHex : Text) : Setter where
  check := do
    rejectIf (ring = []) .invalidInput
    rejectIf (ringW ≠ [] ∧ ringW.length ≠ ring.length) .invalidInput
    rejectIf (msgHex ≠ [] ∧ msgHex.length ≠ 64) .invalidInput
  mutate s := do
    rejectIf (s.pricClaimRing ≠ [] ∧ s.pricClaimRing ≠ ring) .invalidInput
    let ringW ← supply nonempty nonempty ringW s.pricClaimRingW
    let msgHex ← supply nonempty nonempty msgHex s.pricClaimMsgHex
    let pi ← supply (fun i => 0 ≤ i) (fun i => 0 ≤ i) pi s.pricClaimPi
    let unsignedTxHex ← supply nonempty nonempty unsignedTxHex s.pricClaimUnsignedTxHex
    return { s with
      pricClaimRing := ring
      pricClaimRingW := ringW
      pricClaimMsgHex := msgHex
      pricClaimPi := pi
      pricClaimUnsignedTxHex := unsignedTxHex }

/-- Note an unsigned transaction in a field, once, after the set-up and before the end. -/
def setUnsignedTx (field : AdaptorSwap → Text) (store : Text → AdaptorSwap → AdaptorSwap)
    (unsignedTxHex : Text) : Setter where
  check := do
    rejectIf (unsignedTxHex = []) .invalidInput
    rejectIf (unsignedTxHex.length < 20) .invalidInput
  mutate s := do
    rejectIf (s.state = .setup) .invalidState
    rejectIf s.state.terminal .invalidState
    if field s ≠ [] then
      if field s = unsignedTxHex then return s else throw .invalidInput
    else return store unsignedTxHex s

def setPricRefundTx : Text → Setter :=
  setUnsignedTx (fun s => s.pricRefundUnsignedTxHex)
    (fun hex s => { s with pricRefundUnsignedTxHex := hex })

inductive CoopsignLeg where
  | pricClaimAdaptor
  | pricRefund
  | btcClaimAdaptor
  | btcRefund

def setCoopsignSession (leg : CoopsignLeg) (sessionJson : Text) : Setter where
  check := .ok ()
  mutate s := do
    rejectIf s.state.terminal .invalidState
    return match leg with
      | .pricClaimAdaptor => { s with pricClaimAdaptorSessionJson := sessionJson }
      | .pricRefund => { s with pricRefundSessionJson := sessionJson }
      | .btcClaimAdaptor => { s with btcClaimAdaptorSessionJson := sessionJson }
      | .btcRefund => { s with btcRefundSessionJson := sessionJson }

def setBtcRefundTx : Text → Setter :=
  setUnsignedTx (fun s => s.btcRefundUnsignedTxHex)
    (fun hex s => { s with btcRefundUnsignedTxHex := hex })

def setBtcClaimTx : Text → Setter :=
  setUnsignedTx (fun s => s.btcClaimUnsignedTxHex)
    (fun hex s => { s with btcClaimUnsignedTxHex := hex })

/-- The funding transaction decodes to an id, which is noted with the planned output unless an id
is there already. -/
def setPricFundingPlanned (decodeTx : Text → Option Uint256) (unsignedTxHex : Text)
    (plannedVout : Int32) : Setter where
  check := do
    rejectIf (unsignedTxHex = [] ∨ unsignedTxHex.length < 20) .invalidInput
    rejectIf (plannedVout < 0) .invalidInput
    rejectIf (decodeTx unsignedTxHex = none) .invalidInput
  mutate s := do
    rejectIf (s.state ≠ .setup ∧ s.state ≠ .adaptorReady ∧ s.state ≠ .preSigned ∧
      s.state ≠ .btcFunded) .invalidState
    rejectIf (s.pricFundingUnsignedTxHex ≠ [] ∧
      (s.pricFundingUnsignedTxHex ≠ unsignedTxHex ∨ s.pricFundingPlannedVout ≠ plannedVout))
      .invalidInput
    let s := { s with
      pricFundingUnsignedTxHex := unsignedTxHex, pricFundingPlannedVout := plannedVout }
    return if s.pricFundingTxid = nullHash then
      { s with
        pricFundingTxid := (decodeTx unsignedTxHex).getD nullHash
        pricFundingVout := plannedVout }
      else s

def setBtcFundingPlanned (signedTxHex plannedTxidHex : Text) (plannedVout : Int32) : Setter where
  check := do
    rejectIf (signedTxHex ≠ [] ∧ signedTxHex.length < 20) .invalidInput
    rejectIf (plannedTxidHex.length ≠ 64) .invalidInput
    rejectIf (plannedVout < 0) .invalidInput
  mutate s := do
    rejectIf (s.foreignChain ≠ btc) .invalidInput
    rejectIf (s.state ≠ .setup ∧ s.state ≠ .adaptorReady ∧ s.state ≠ .preSigned) .invalidState
    rejectIf (s.btcFundingPlannedTxid ≠ [] ∧
      (s.btcFundingPlannedTxid ≠ plannedTxidHex ∨ s.btcFundingPlannedVout ≠ plannedVout))
      .invalidInput
    let signedTxHex ← supply nonempty nonempty signedTxHex s.btcFundingUnsignedTxHex
    return { s with
      btcFundingPlannedTxid := plannedTxidHex
      btcFundingPlannedVout := plannedVout
      btcFundingUnsignedTxHex := signedTxHex }

def setPeerStealthPubkeys (viewHex spendHex : Text) : Setter where
  check := rejectIf (viewHex.length ≠ 66 ∨ spendHex.length ≠ 66) .invalidInput
  mutate s := do
    rejectIf s.state.terminal .invalidState
    if s.peerViewPubkeyHex ≠ [] ∨ s.peerSpendPubkeyHex ≠ [] then
      if s.peerViewPubkeyHex = viewHex ∧ s.peerSpendPubkeyHex = spendHex then return s
      else throw .invalidInput
    else return { s with peerViewPubkeyHex := viewHex, peerSpendPubkeyHex := spendHex }

def setComplete (foreignClaimTxid : Text) : Setter where
  check := rejectIf (foreignClaimTxid = []) .invalidInput
  mutate s := do
    rejectIf (s.state ≠ .pricClaimed) .invalidState
    return { s with foreignClaimTxid := foreignClaimTxid, state := .complete }

def setRefunded (pricRefundTxidOrEmpty : Uint256) (foreignRefundTxidOrEmpty : Text) :
    Setter where
  check := rejectIf (pricRefundTxidOrEmpty = nullHash ∧ foreignRefundTxidOrEmpty = [])
    .invalidInput
  mutate s := do
    rejectIf (s.state ≠ .btcFunded ∧ s.state ≠ .bothFunded ∧ s.state ≠ .pricClaimed)
      .invalidState
    return { s with
      pricRefundTxid :=
        if pricRefundTxidOrEmpty = nullHash then s.pricRefundTxid else pricRefundTxidOrEmpty
      foreignRefundTxid :=
        if foreignRefundTxidOrEmpty = [] then s.foreignRefundTxid else foreignRefundTxidOrEmpty
      state := .refunded }

def abort (reason : Text) : Setter where
  check := .ok ()
  mutate s := do
    rejectIf s.state.terminal .invalidState
    let s := { s with abortReason := reason }
    let s := if s.hasT then wipeSecret s else s
    return { s with state := .aborted }

/-- The calls that change a record. -/
inductive Transition where
  | setAdaptorMaterials (T_G T_H : Bytes 33) (dleqProofBlob : List UInt8)
      (tSecretForBob : Option (Bytes 32))
  | setPricEphemeralR (r : Bytes 32)
  | setRefundTimelocks (pricRefundHeight foreignRefundHeight deltaMinBlocks : Int32)
  | setBtcFunded (txid : Text) (vout height : Int32)
  | setPricFunded (txid : Uint256) (vout height : Int32)
  | setPreSigned (presigs : AdaptorSwapPreSigs)
  | setPricClaimed (txid : Uint256)
  | setTSecret (t : Bytes 32)
  | setPricClaimRing (ring ringW : List (Bytes 33)) (msgHex : Text) (pi : Int32)
      (unsignedTxHex : Text)
  | setPricRefundTx (unsignedTxHex : Text)
  | setCoopsignSession (leg : CoopsignLeg) (sessionJson : Text)
  | setBtcRefundTx (unsignedTxHex : Text)
  | setBtcClaimTx (unsignedTxHex : Text)
  | setPricFundingPlanned (unsignedTxHex : Text) (plannedVout : Int32)
  | setBtcFundingPlanned (signedTxHex plannedTxidHex : Text) (plannedVout : Int32)
  | setPeerStealthPubkeys (viewHex spendHex : Text)
  | setComplete (foreignClaimTxid : Text)
  | setRefunded (pricRefundTxid : Uint256) (foreignRefundTxid : Text)
  | abort (reason : Text)

def Transition.setter (decodeTx : Text → Option Uint256) : Transition → Setter
  | .setAdaptorMaterials T_G T_H dleq t => AdaptorSwaps.setAdaptorMaterials T_G T_H dleq t
  | .setPricEphemeralR r => AdaptorSwaps.setPricEphemeralR r
  | .setRefundTimelocks pric foreign delta => AdaptorSwaps.setRefundTimelocks pric foreign delta
  | .setBtcFunded txid vout height => AdaptorSwaps.setBtcFunded txid vout height
  | .setPricFunded txid vout height => AdaptorSwaps.setPricFunded txid vout height
  | .setPreSigned presigs => AdaptorSwaps.setPreSigned presigs
  | .setPricClaimed txid => AdaptorSwaps.setPricClaimed txid
  | .setTSecret t => AdaptorSwaps.setTSecret t
  | .setPricClaimRing ring ringW msgHex pi hex =>
    AdaptorSwaps.setPricClaimRing ring ringW msgHex pi hex
  | .setPricRefundTx hex => AdaptorSwaps.setPricRefundTx hex
  | .setCoopsignSession leg json => AdaptorSwaps.setCoopsignSession leg json
  | .setBtcRefundTx hex => AdaptorSwaps.setBtcRefundTx hex
  | .setBtcClaimTx hex => AdaptorSwaps.setBtcClaimTx hex
  | .setPricFundingPlanned hex vout => AdaptorSwaps.setPricFundingPlanned decodeTx hex vout
  | .setBtcFundingPlanned hex txid vout => AdaptorSwaps.setBtcFundingPlanned hex txid vout
  | .setPeerStealthPubkeys view spend => AdaptorSwaps.setPeerStealthPubkeys view spend
  | .setComplete txid => AdaptorSwaps.setComplete txid
  | .setRefunded pric foreign => AdaptorSwaps.setRefunded pric foreign
  | .abort reason => AdaptorSwaps.abort reason

end Setters

section Calls

inductive CreateResult where
  | ok (out : AdaptorSwap)
  | invalidCounterpartyPubkey
  | invalidForeignLeg
  | invalidPricLeg
  | locked
  | writeFailed
  deriving DecidableEq

inductive LookupResult (α : Type) where
  | ok (out : α)
  | notFound
  | locked

structure CreateArgs where
  role : Role
  counterpartyPub : CPubKey
  foreignChain : Text
  foreignAmountSat : Int64
  pricJointStealthAddress : Text
  pricAmountSat : Int64
  memo : Text
  btcAliceRecipientXonlyHex : Text
  btcBobRecipientXonlyHex : Text
  pricAliceRecipientStealth : Text
  pricBobRecipientStealth : Text
  swapIdPinned : Option Uint256

/-- What a call is made in, with the clock and a random id. -/
structure Env (ι : Type) extends Conditions ι where
  nowSec : Int64
  randomId : Uint256

def validForeignChain (chain : Text) : Bool := chain = btc ∨ chain = ltc ∨ chain = regtest

def validJointStealthAddr (addr : Text) : Bool := 16 ≤ addr.length ∧ addr.length ≤ 256

def noPreSigs : AdaptorSwapPreSigs := ⟨[], [], 0, [], [], []⟩

def CreateArgs.swapId (args : CreateArgs) (randomId : Uint256) : Uint256 :=
  match args.swapIdPinned with
  | some id => if id ≠ nullHash then id else randomId
  | none => randomId

/-- A record as it is created. -/
def newSwap (nowSec : Int64) (swapId : Uint256) (counterpartyPub : Bytes 33)
    (args : CreateArgs) : AdaptorSwap where
  swapId := swapId
  role := args.role
  state := .setup
  counterpartyPub := counterpartyPub
  foreignChain := args.foreignChain
  foreignAmountSat := args.foreignAmountSat
  foreignFundingTxid := []
  foreignFundingVout := -1
  foreignFundingHeight := 0
  foreignClaimTxid := []
  foreignRefundTxid := []
  pricJointStealthAddress := args.pricJointStealthAddress
  pricAmountSat := args.pricAmountSat
  pricFundingTxid := nullHash
  pricFundingVout := -1
  pricFundingHeight := 0
  pricClaimTxid := nullHash
  pricRefundTxid := nullHash
  T_G := .replicate 33 0
  T_H := .replicate 33 0
  dleqProofBlob := []
  adaptorSet := false
  tSecret := .replicate 32 0
  hasT := false
  pricRefundHeight := 0
  foreignRefundHeight := 0
  deltaMinBlocks := 0
  timelocksSet := false
  presigs := noPreSigs
  memo := args.memo
  createdTime := nowSec
  updatedTime := nowSec
  abortReason := []
  btcAliceRecipientXonlyHex := args.btcAliceRecipientXonlyHex
  btcBobRecipientXonlyHex := args.btcBobRecipientXonlyHex
  pricAliceRecipientStealth := args.pricAliceRecipientStealth
  pricBobRecipientStealth := args.pricBobRecipientStealth
  pricClaimRing := []
  pricEphemeralR := .replicate 32 0
  hasPricEphemeralR := false
  pricRefundUnsignedTxHex := []
  peerViewPubkeyHex := []
  peerSpendPubkeyHex := []
  btcRefundUnsignedTxHex := []
  pricClaimAdaptorSessionJson := []
  pricRefundSessionJson := []
  btcClaimAdaptorSessionJson := []
  btcRefundSessionJson := []
  pricFundingUnsignedTxHex := []
  pricFundingPlannedVout := -1
  pricClaimRingW := []
  pricClaimMsgHex := []
  pricClaimPi := -1
  pricClaimUnsignedTxHex := []
  btcFundingUnsignedTxHex := []
  btcFundingPlannedTxid := []
  btcFundingPlannedVout := -1
  btcClaimUnsignedTxHex := []

/-- Records from before the id of the funding transaction was noted get it when they are
loaded. -/
def backFill (decodeTx : Text → Option Uint256) (s : AdaptorSwap) : AdaptorSwap :=
  if s.pricFundingUnsignedTxHex ≠ [] ∧ s.pricFundingTxid = nullHash then
    match decodeTx s.pricFundingUnsignedTxHex with
    | none => s
    | some txid =>
      { s with
        pricFundingTxid := txid
        pricFundingVout :=
          if s.pricFundingVout < 0 ∧ 0 ≤ s.pricFundingPlannedVout then s.pricFundingPlannedVout
          else s.pricFundingVout }
  else s

theorem swapId_backFill (decodeTx : Text → Option Uint256) (s : AdaptorSwap) :
    (backFill decodeTx s).swapId = s.swapId := by
  unfold backFill
  split
  · split <;> rfl
  · rfl

/-- The rows are under the ids, and rows that cannot be read are skipped. -/
def format (decodeTx : Text → Option Uint256) : Format Uint256 Uint256 AdaptorSwap where
  digest := id
  digest_injective := Function.injective_id
  keyOf := AdaptorSwap.swapId
  codec := swapCodec
  fits := fits_swapCodec
  lenient := true
  onLoad := backFill decodeTx
  keyOf_onLoad := swapId_backFill decodeTx

abbrev Wallet := Cache Uint256 Uint256 AdaptorSwap

variable {ι : Type} (decodeTx : Text → Option Uint256) (seals : Sealing ι)

/-- An existing record is returned as it is. -/
def createChange (new : AdaptorSwap) :
    Option AdaptorSwap → Except CreateResult (AdaptorSwap × AdaptorSwap)
  | some existing => .error (.ok existing)
  | none => .ok (new, new)

/-- The key's bytes, if it is a valid compressed key. -/
def compressed (key : CPubKey) : Option (Bytes 33) :=
  if h : key.vch.length = 33 then some ⟨key.vch, h⟩ else none

def create (env : Env ι) (args : CreateArgs) (c : Wallet) : Option CreateResult × Wallet :=
  match compressed args.counterpartyPub with
  | none => (some .invalidCounterpartyPubkey, c)
  | some counterpartyPub =>
    if !validForeignChain args.foreignChain ∨ args.foreignAmountSat ≤ 0 then
      (some .invalidForeignLeg, c)
    else if !validJointStealthAddr args.pricJointStealthAddress ∨ args.pricAmountSat ≤ 0 then
      (some .invalidPricLeg, c)
    else
      let new := newSwap env.nowSec (args.swapId env.randomId) counterpartyPub args
      let (outcome, c) :=
        amend (format decodeTx) seals env.toConditions new.swapId (createChange new) c
      (outcome.result .locked .writeFailed (.ok new), c)

/-- What a setter makes of the record that is found. -/
def setterChange (nowSec : Int64) (setter : Setter) :
    Option AdaptorSwap → Except TransitionResult (AdaptorSwap × AdaptorSwap)
  | none => .error .notFound
  | some s =>
    match setter.mutate s with
    | .error r => .error r
    | .ok s => .ok ({ s with updatedTime := nowSec }, { s with updatedTime := nowSec })

def mutateAndPersist (env : Env ι) (swapId : Uint256) (setter : Setter) (c : Wallet) :
    Option TransitionResult × Wallet :=
  let (outcome, c) :=
    amend (format decodeTx) seals env.toConditions swapId (setterChange env.nowSec setter) c
  (outcome.result .locked .writeFailed .ok, c)

def call (env : Env ι) (swapId : Uint256) (t : Transition) (c : Wallet) :
    Option TransitionResult × Wallet :=
  match (t.setter decodeTx).check with
  | .error r => (some r, c)
  | .ok () => mutateAndPersist decodeTx seals env swapId (t.setter decodeTx) c

/-- Look at the copy, after it was loaded. -/
def lookup {α : Type} (env : Env ι) (view : (Uint256 → Option AdaptorSwap) → LookupResult α)
    (c : Wallet) : Option (LookupResult α) × Wallet :=
  if env.locked then (some .locked, c)
  else match ensureLoaded (format decodeTx) seals env.toConditions c with
    | (.threw, c) => (none, c)
    | (.failed, c) => (some .notFound, c)
    | (.done, c) => (some (view c.store), c)

def get (env : Env ι) (swapId : Uint256) :
    Wallet → Option (LookupResult AdaptorSwap) × Wallet :=
  lookup decodeTx seals env fun store =>
    match store swapId with
    | some s => .ok s
    | none => .notFound

/-- All records, by their ids. -/
def list (env : Env ι) :
    Wallet → Option (LookupResult (Uint256 → Option AdaptorSwap)) × Wallet :=
  lookup decodeTx seals env .ok

def loadFromDB (env : Env ι) (c : Wallet) : Option Bool × Wallet :=
  if env.locked then (some true, c)
  else match ensureLoaded (format decodeTx) seals env.toConditions c with
    | (.threw, c) => (none, c)
    | (.failed, c) => (some false, c)
    | (.done, c) => (some true, c)

inductive Event (ι : Type) where
  | create (env : Env ι) (args : CreateArgs)
  | call (env : Env ι) (swapId : Uint256) (t : Transition)
  | get (env : Env ι) (swapId : Uint256)
  | list (env : Env ι)
  | loadFromDB (env : Env ι)
  | restart

inductive Reply where
  | create (result : Option CreateResult)
  | call (result : Option TransitionResult)
  | get (result : Option (LookupResult AdaptorSwap))
  | list (result : Option (LookupResult (Uint256 → Option AdaptorSwap)))
  | load (result : Option Bool)
  | none

/-- What an event gives back and leaves behind. -/
def perform (c : Wallet) : Event ι → Reply × Wallet
  | .create env args =>
    let (result, c) := create decodeTx seals env args c
    (.create result, c)
  | .call env swapId t =>
    let (result, c) := AdaptorSwaps.call decodeTx seals env swapId t c
    (.call result, c)
  | .get env swapId =>
    let (result, c) := get decodeTx seals env swapId c
    (.get result, c)
  | .list env =>
    let (result, c) := list decodeTx seals env c
    (.list result, c)
  | .loadFromDB env =>
    let (result, c) := loadFromDB decodeTx seals env c
    (.load result, c)
  | .restart => (.none, DurableRecords.restart c)

def reply (c : Wallet) (event : Event ι) : Reply := (perform decodeTx seals c event).1

def step (c : Wallet) (event : Event ι) : Wallet := (perform decodeTx seals c event).2

/-- Events on a wallet that starts without records. -/
def run (events : List (Event ι)) : Wallet :=
  events.foldl (step decodeTx seals) ⟨[], fun _ => none, false⟩

end Calls

end Pricoin.AdaptorSwaps
