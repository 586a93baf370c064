import Pricoin.ClsagNonces

/-!
The swap sessions of a wallet. A session is the initiator's or the responder's record of a
signing with a counterparty, with the key that signs its messages. It is active until it is
completed or aborted, where an abort may carry a message of the counterparty's as the blame.
The records are kept in rows and in memory, as the other records of the wallet are.
-/
namespace Pricoin.SwapSessions

open ByteStreams Codecs Codec KeyImageFile RecordCodecs DurableRecords
open ClsagNonces (Role Seconds roleCodec fits_roleCodec)

section Records

inductive State where
  | active
  | complete
  | aborted
  deriving DecidableEq

def State.toByte : State → UInt8
  | .active => 0
  | .complete => 1
  | .aborted => 2

def State.ofByte (b : UInt8) : State :=
  if b = 0 then .active else if b = 1 then .complete else .aborted

def stateCodec : Codec State := byte.via State.toByte State.ofByte

theorem fits_stateCodec : Fits stateCodec := fits_byte.via fun s => by cases s <;> rfl

/-- The reason is the byte it is written as. -/
structure BlameTicket where
  reason : UInt8
  payload : List UInt8
  signature : List UInt8
  detail : List UInt8
  deriving DecidableEq

def noBlame : BlameTicket := ⟨0, [], [], []⟩

structure SwapSession where
  sessionId : Uint256
  myPriv : Bytes 32
  myPub : Bytes 33
  counterpartyPub : Bytes 33
  role : Role
  state : State
  spendTxid : Uint256
  blame : BlameTicket
  createdTime : Int64
  updatedTime : Int64
  memo : List UInt8
  deriving DecidableEq

def blameCodec : Codec BlameTicket :=
  (byte.pair (bytes.pair (bytes.pair bytes))).via
    (fun t => (t.reason, t.payload, t.signature, t.detail))
    (fun x => ⟨x.1, x.2.1, x.2.2.1, x.2.2.2⟩)

theorem fits_blameCodec : Fits blameCodec :=
  (fits_byte.pair <| fits_bytes.pair <| fits_bytes.pair fits_bytes).via fun _ => rfl

def sessionCodec : Codec SwapSession :=
  ((block 32).pair ((block 32).pair ((block 33).pair ((block 33).pair (roleCodec.pair
    (stateCodec.pair ((block 32).pair (blameCodec.pair (sint64.pair
      (sint64.pair bytes)))))))))).via
    (fun s => (s.sessionId, s.myPriv, s.myPub, s.counterpartyPub, s.role, s.state, s.spendTxid,
      s.blame, s.createdTime, s.updatedTime, s.memo))
    (fun x => ⟨x.1, x.2.1, x.2.2.1, x.2.2.2.1, x.2.2.2.2.1, x.2.2.2.2.2.1, x.2.2.2.2.2.2.1,
      x.2.2.2.2.2.2.2.1, x.2.2.2.2.2.2.2.2.1, x.2.2.2.2.2.2.2.2.2.1, x.2.2.2.2.2.2.2.2.2.2⟩)

theorem fits_sessionCodec : Fits sessionCodec :=
  ((fits_block 32).pair <| (fits_block 32).pair <| (fits_block 33).pair <|
    (fits_block 33).pair <| fits_roleCodec.pair <| fits_stateCodec.pair <|
      (fits_block 32).pair <| fits_blameCodec.pair <| fits_sint64.pair <|
        fits_sint64.pair fits_bytes).via fun _ => rfl

/-- A row that cannot be read stops the loader, and so does one under another id. -/
def format : Format Uint256 Uint256 SwapSession where
  digest := id
  digest_injective := Function.injective_id
  keyOf := SwapSession.sessionId
  codec := sessionCodec
  fits := fits_sessionCodec
  lenient := false
  onLoad := id
  keyOf_onLoad _ := rfl

end Records

section Calls

/-- The identity key of the wallet, and signatures over the hash of a payload. -/
structure SessionLibrary where
  validCompressed : Bytes 33 → Bool
  identity : Option (Bytes 32 × Bytes 33)
  signPayload : Bytes 32 → List UInt8 → Option (List UInt8)
  verifyPayload : Bytes 33 → List UInt8 → List UInt8 → Bool

inductive CreateResult where
  | ok
  | invalidCounterpartyPubkey
  | duplicateSessionId
  | locked
  | derivationFailed
  | writeFailed
  deriving DecidableEq

inductive LookupResult where
  | ok
  | notFound
  | locked
  deriving DecidableEq

inductive TransitionResult where
  | ok
  | notFound
  | invalidState
  | invalidBlame
  | locked
  | writeFailed
  deriving DecidableEq

abbrev Sessions := Cache Uint256 Uint256 SwapSession

structure Env (ι : Type) extends Conditions ι where
  now : Int64

variable {ι : Type} (lib : SessionLibrary) (seals : Sealing ι) (env : Env ι)

def nullId : Uint256 := .replicate 32 0

/-- Load, and then act. A loader that throws is taken as one that fails. -/
def loaded {ε : Type} (failed : ε) (act : Sessions → ε × Sessions) (c : Sessions) :
    ε × Sessions :=
  match ensureLoaded format seals env.toConditions c with
  | (.done, c) => act c
  | (_, c) => (failed, c)

/-- Write a new session and keep it. -/
def keep (sessionId : Uint256) (counterparty : Bytes 33) (role : Role) (memo : List UInt8)
    (identity : Bytes 32 × Bytes 33) (c : Sessions) :
    (CreateResult × Option SwapSession) × Sessions :=
  let s : SwapSession :=
    ⟨sessionId, identity.1, identity.2, counterparty, role, .active, nullId, noBlame, env.now,
      env.now, memo⟩
  loaded seals env (.writeFailed, none) (fun c =>
    match writeRecord format seals env.toConditions s c with
    | (false, c) => ((.writeFailed, none), c)
    | (true, c) => ((.ok, some s), { c with store := put format s c.store })) c

/-- The ids that are drawn, of which the first that is not null is taken. -/
def create (draws : List Uint256) (counterparty : Bytes 33) (memo : List UInt8) (c : Sessions) :
    (CreateResult × Option SwapSession) × Sessions :=
  if !lib.validCompressed counterparty then ((.invalidCounterpartyPubkey, none), c)
  else if env.locked then ((.locked, none), c)
  else
    match lib.identity, draws.find? (· ≠ nullId) with
    | some identity, some sessionId =>
      keep seals env sessionId counterparty .initiator memo identity c
    | _, _ => ((.derivationFailed, none), c)

/-- Sessions that are not yet loaded are not looked at for a duplicate. -/
def attach (sessionId : Uint256) (counterparty : Bytes 33) (memo : List UInt8) (c : Sessions) :
    (CreateResult × Option SwapSession) × Sessions :=
  if !lib.validCompressed counterparty then ((.invalidCounterpartyPubkey, none), c)
  else if sessionId = nullId then ((.derivationFailed, none), c)
  else if env.locked then ((.locked, none), c)
  else if c.loaded ∧ (c.store sessionId).isSome then ((.duplicateSessionId, none), c)
  else
    match lib.identity with
    | none => ((.derivationFailed, none), c)
    | some identity => keep seals env sessionId counterparty .responder memo identity c

def sign (sessionId : Uint256) (payload : List UInt8) (c : Sessions) :
    Option (List UInt8) × Sessions :=
  if env.locked then (none, c)
  else
    loaded seals env none (fun c =>
      ((c.store sessionId).bind fun s => lib.signPayload s.myPriv payload, c)) c

/-- A locked wallet cannot decrypt a row. -/
def verify (sessionId : Uint256) (payload signature : List UInt8) (c : Sessions) :
    Bool × Sessions :=
  let readable := env.reads && !(env.locked && !c.rows.isEmpty)
  loaded seals { env with reads := readable } false (fun c =>
    (((c.store sessionId).map fun s =>
      lib.verifyPayload s.counterpartyPub payload signature).getD false, c)) c

def get (sessionId : Uint256) (c : Sessions) : (LookupResult × Option SwapSession) × Sessions :=
  if env.locked then ((.locked, none), c)
  else
    loaded seals env (.notFound, none) (fun c =>
      match c.store sessionId with
      | none => ((.notFound, none), c)
      | some s => ((.ok, some s), c)) c

/-- The sessions are given as the table that they are listed from. -/
def list (c : Sessions) : (LookupResult × (Uint256 → Option SwapSession)) × Sessions :=
  if env.locked then ((.locked, fun _ => none), c)
  else loaded seals env (.notFound, fun _ => none) (fun c => ((.ok, c.store), c)) c

/-- Write the changed session. When that fails the record in memory is put back as `undo` says. -/
def transit (sessionId : Uint256) (change : SwapSession → Except TransitionResult SwapSession)
    (undo : SwapSession → SwapSession) (c : Sessions) : TransitionResult × Sessions :=
  if env.locked then (.locked, c)
  else
    loaded seals env .writeFailed (fun c =>
      match c.store sessionId with
      | none => (.notFound, c)
      | some s =>
        if s.state ≠ .active then (.invalidState, c)
        else
          match change s with
          | .error r => (r, c)
          | .ok s' =>
            match writeRecord format seals env.toConditions s' c with
            | (false, c) => (.writeFailed, { c with store := put format (undo s') c.store })
            | (true, c) => (.ok, { c with store := put format s' c.store })) c

def complete (sessionId spendTxid : Uint256) (c : Sessions) : TransitionResult × Sessions :=
  transit seals env sessionId
    (fun s => .ok { s with state := .complete, spendTxid := spendTxid, updatedTime := env.now })
    (fun s => { s with state := .active, spendTxid := nullId }) c

/-- A blame must be signed by the counterparty. -/
def abort (sessionId : Uint256) (blame : Option BlameTicket) (c : Sessions) :
    TransitionResult × Sessions :=
  transit seals env sessionId
    (fun s =>
      match blame with
      | none => .ok { s with state := .aborted, updatedTime := env.now }
      | some ticket =>
        if !lib.verifyPayload s.counterpartyPub ticket.payload ticket.signature then
          .error .invalidBlame
        else .ok { s with blame := ticket, state := .aborted, updatedTime := env.now })
    (fun s => { s with state := .active, blame := noBlame }) c

inductive Call where
  | create (draws : List Uint256) (counterparty : Bytes 33) (memo : List UInt8)
  | attach (sessionId : Uint256) (counterparty : Bytes 33) (memo : List UInt8)
  | sign (sessionId : Uint256) (payload : List UInt8)
  | verify (sessionId : Uint256) (payload signature : List UInt8)
  | get (sessionId : Uint256)
  | list
  | complete (sessionId spendTxid : Uint256)
  | abort (sessionId : Uint256) (blame : Option BlameTicket)

inductive Reply where
  | session (result : CreateResult × Option SwapSession)
  | signature (result : Option (List UInt8))
  | verdict (result : Bool)
  | found (result : LookupResult × Option SwapSession)
  | table (result : LookupResult × (Uint256 → Option SwapSession))
  | transition (result : TransitionResult)

def perform (c : Sessions) : Call → Reply × Sessions
  | .create draws counterparty memo =>
    (create lib seals env draws counterparty memo c).map .session id
  | .attach sessionId counterparty memo =>
    (attach lib seals env sessionId counterparty memo c).map .session id
  | .sign sessionId payload => (sign lib seals env sessionId payload c).map .signature id
  | .verify sessionId payload signature =>
    (verify lib seals env sessionId payload signature c).map .verdict id
  | .get sessionId => (get seals env sessionId c).map .found id
  | .list => (list seals env c).map .table id
  | .complete sessionId spendTxid =>
    (complete seals env sessionId spendTxid c).map .transition id
  | .abort sessionId blame => (abort lib seals env sessionId blame c).map .transition id

end Calls

end Pricoin.SwapSessions
