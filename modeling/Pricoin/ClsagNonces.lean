import Pricoin.DurableRecords
import Pricoin.KeyImageFile
import Pricoin.Runs

/-!
The wallet's records of ring-signature nonces. A record is kept for each joint output,
ring and role before the commitment to a nonce is published, and a second one is
refused while the first is in flight or when it is for another session. A call that is
cut off after its row was written is a call followed by a restart.
-/
namespace Pricoin.ClsagNonces

open ByteStreams Codecs KeyImageFile RecordCodecs DurableRecords Runs List Option Function

section Records

inductive Role where
  | initiator
  | responder
  deriving DecidableEq

def Role.toByte : Role → UInt8
  | .initiator => 0
  | .responder => 1

/-- No other bytes are written. -/
def Role.ofByte (b : UInt8) : Role := if b = 0 then .initiator else .responder

structure RecordKey where
  jointOutputId : List UInt8
  ringHash : Uint256
  role : Role
  deriving DecidableEq

structure NonceRecord where
  key : RecordKey
  sessionId : Uint256
  alpha : Bytes 32
  commitment : Uint256
  tPublished : Bool
  createdTime : Int64
  updatedTime : Int64
  deriving DecidableEq

/-- What the clock gives, which asserts that it is past the epoch. -/
abbrev Seconds := { t : Int64 // 0 < t }

def roleCodec : Codec Role := Codec.byte.via Role.toByte Role.ofByte

theorem fits_roleCodec : Fits roleCodec :=
  fits_byte.via fun role => by cases role <;> rfl

def keyCodec : Codec RecordKey :=
  (bytes.pair ((Codec.block 32).pair roleCodec)).via
    (fun k => (k.jointOutputId, k.ringHash, k.role)) (fun p => ⟨p.1, p.2.1, p.2.2⟩)

theorem fits_keyCodec : Fits keyCodec :=
  (fits_bytes.pair ((fits_block 32).pair fits_roleCodec)).via fun _ => rfl

def recordCodec : Codec NonceRecord :=
  (keyCodec.pair ((Codec.block 32).pair ((Codec.block 32).pair ((Codec.block 32).pair
    (bool.pair (sint64.pair sint64)))))).via
    (fun r => (r.key, r.sessionId, r.alpha, r.commitment, r.tPublished, r.createdTime,
      r.updatedTime))
    (fun p => ⟨p.1, p.2.1, p.2.2.1, p.2.2.2.1, p.2.2.2.2.1, p.2.2.2.2.2.1, p.2.2.2.2.2.2⟩)

theorem fits_recordCodec : Fits recordCodec :=
  (fits_keyCodec.pair ((fits_block 32).pair ((fits_block 32).pair ((fits_block 32).pair
    (fits_bool.pair (fits_sint64.pair fits_sint64)))))).via fun _ => rfl

def recordDigestTag : List UInt8 := ascii "pricoin/clsag-nonce-record-v1"

/-- What goes into the digest of a key. -/
def digestMessage (k : RecordKey) : List UInt8 :=
  recordDigestTag ++ (leBytes 8 k.jointOutputId.length ++ (k.jointOutputId ++
    (k.ringHash.toList ++ [k.role.toByte])))

theorem Role.toByte_injective : Injective Role.toByte := by
  intro a b h
  cases a <;> cases b <;> first | rfl | exact absurd h (by decide)

theorem digestMessage_injective : Injective digestMessage := by
  intro k k' h
  unfold digestMessage at h
  have htail := append_cancel_left h
  obtain ⟨-, hbody⟩ := append_inj htail (by rw [leBytes_length, leBytes_length])
  -- the ring hash and the role have a fixed length behind the output id
  obtain ⟨hid, hrest⟩ := append_inj' hbody (by simp)
  obtain ⟨hring, hrole⟩ := append_inj hrest (by simp)
  cases k
  cases k'
  simp only [cons.injEq, and_true] at hid hring hrole
  rw [hid, List.Vector.toList_injective hring, Role.toByte_injective hrole]

variable {δ : Type} (sha256 : List UInt8 → δ)

def recordDigest (k : RecordKey) : δ := sha256 (digestMessage k)

/-- A row that cannot be read stops the loader. -/
def format (hinj : Injective sha256) : Format RecordKey δ NonceRecord where
  digest := recordDigest sha256
  digest_injective := hinj.comp digestMessage_injective
  keyOf := NonceRecord.key
  codec := recordCodec
  fits := fits_recordCodec
  lenient := false
  onLoad := id
  keyOf_onLoad _ := rfl

end Records

section Policy

inductive Decision where
  | ok
  | conflictDifferentSession
  | conflictSameSessionInFlight

def evaluateCreate (existing : Option NonceRecord) (proposed : NonceRecord) : Decision :=
  match existing with
  | none => .ok
  | some existing =>
    if existing.key ≠ proposed.key then .conflictDifferentSession
    else if existing.sessionId ≠ proposed.sessionId then .conflictDifferentSession
    else if !existing.tPublished then .conflictSameSessionInFlight
    else .ok

/-- The record that `TryCreate` puts in memory. -/
def stamp (nowSec : Seconds) (record : NonceRecord) : NonceRecord :=
  let createdTime := if record.createdTime = 0 then nowSec.val else record.createdTime
  { record with createdTime := createdTime, updatedTime := createdTime }

def publish (nowSec : Seconds) (record : NonceRecord) : NonceRecord :=
  { record with tPublished := true, updatedTime := nowSec }

end Policy

section Calls

inductive BeginResult where
  | ok
  | invalidInput
  | locked
  | conflictDifferentSession
  | conflictSameSessionInFlight
  | writeFailed
  deriving DecidableEq

inductive MutateResult where
  | ok
  | notFound
  | locked
  | writeFailed
  deriving DecidableEq

inductive LookupResult where
  | ok (record : NonceRecord)
  | notFound
  | locked
  deriving DecidableEq

variable {δ ι : Type} [DecidableEq δ] (fmt : Format RecordKey δ NonceRecord) (seals : Sealing ι)

abbrev Wallet (δ : Type) := Cache RecordKey δ NonceRecord

def newRecord (now : Seconds) (key : RecordKey) (sessionId : Uint256) (alpha : Bytes 32)
    (commitment : Uint256) : NonceRecord :=
  ⟨key, sessionId, alpha, commitment, false, now, now⟩

/-- What a call is made in, with two readings of the clock. -/
structure Env (ι : Type) extends Conditions ι where
  now : Seconds
  later : Seconds

def createChange (later : Seconds) (record : NonceRecord) (existing : Option NonceRecord) :
    Except BeginResult (NonceRecord × NonceRecord) :=
  match evaluateCreate existing record with
  | .ok => .ok (stamp later record, record)
  | .conflictDifferentSession => .error .conflictDifferentSession
  | .conflictSameSessionInFlight => .error .conflictSameSessionInFlight

def publishChange (now : Seconds) :
    Option NonceRecord → Except MutateResult (NonceRecord × NonceRecord)
  | none => .error .notFound
  | some record => .ok (publish now record, publish now record)

def lookupChange : Option NonceRecord → Except LookupResult (NonceRecord × NonceRecord)
  | none => .error .notFound
  | some record => .error (.ok record)

def begin (env : Env ι) (key : RecordKey) (sessionId : Uint256) (alpha : Bytes 32)
    (commitment : Uint256) (c : Wallet δ) : Option BeginResult × Wallet δ :=
  if key.jointOutputId = [] ∨ sessionId = nullHash then (some .invalidInput, c)
  else
    let record := newRecord env.now key sessionId alpha commitment
    let (outcome, c) := amend fmt seals env.toConditions key (createChange env.later record) c
    (outcome.result .locked .writeFailed .ok, c)

def markTPublished (env : Env ι) (key : RecordKey) (c : Wallet δ) :
    Option MutateResult × Wallet δ :=
  let (outcome, c) := amend fmt seals env.toConditions key (publishChange env.now) c
  (outcome.result .locked .writeFailed .ok, c)

def get (env : Env ι) (key : RecordKey) (c : Wallet δ) : Option LookupResult × Wallet δ :=
  let (outcome, c) := amend fmt seals env.toConditions key lookupChange c
  (outcome.result .locked .notFound .notFound, c)

def loadFromDB (env : Env ι) (c : Wallet δ) : Option Bool × Wallet δ :=
  if env.locked then (some true, c)
  else match ensureLoaded fmt seals env.toConditions c with
    | (.threw, c) => (none, c)
    | (.failed, c) => (some false, c)
    | (.done, c) => (some true, c)

inductive Call where
  | begin (key : RecordKey) (sessionId : Uint256) (alpha : Bytes 32) (commitment : Uint256)
  | markTPublished (key : RecordKey)
  | get (key : RecordKey)
  | loadFromDB

inductive Event (ι : Type) where
  | call (env : Env ι) (call : Call)
  | restart

inductive Reply where
  | begin (result : Option BeginResult)
  | mutate (result : Option MutateResult)
  | lookup (result : Option LookupResult)
  | load (result : Option Bool)
  | none
  deriving DecidableEq

/-- What an event gives back and leaves behind. -/
def perform (c : Wallet δ) : Event ι → Reply × Wallet δ
  | .call env (.begin key sessionId alpha commitment) =>
    let (result, c) := begin fmt seals env key sessionId alpha commitment c
    (.begin result, c)
  | .call env (.markTPublished key) =>
    let (result, c) := markTPublished fmt seals env key c
    (.mutate result, c)
  | .call env (.get key) =>
    let (result, c) := get fmt seals env key c
    (.lookup result, c)
  | .call env .loadFromDB =>
    let (result, c) := loadFromDB fmt seals env c
    (.load result, c)
  | .restart => (.none, DurableRecords.restart c)

def reply (c : Wallet δ) (event : Event ι) : Reply := (perform fmt seals c event).1

def step (c : Wallet δ) (event : Event ι) : Wallet δ := (perform fmt seals c event).2

/-- A wallet without records. -/
def newWallet : Wallet δ := ⟨[], fun _ => none, false⟩

end Calls

section Effects

/-- What an event does to the table of records: a record is begun, its secret is noted as
published, or nothing changes. -/
inductive Effect {ι : Type} (table : RecordKey → Option NonceRecord) :
    Event ι → Reply → (RecordKey → Option NonceRecord) → Prop where
  | began {env : Env ι} {key : RecordKey} {sessionId : Uint256} {alpha : Bytes 32}
      {commitment : Uint256} {record : NonceRecord}
      (hrecord : record = newRecord env.now key sessionId alpha commitment)
      (hdecision : evaluateCreate (table key) record = .ok) :
      Effect table (.call env (.begin key sessionId alpha commitment)) (.begin (some .ok))
        (Function.update table key (some record))
  | marked {env : Env ι} {key : RecordKey} {record : NonceRecord}
      (hrecord : table key = some record) (hkey : record.key = key) :
      Effect table (.call env (.markTPublished key)) (.mutate (some .ok))
        (Function.update table key (some (publish env.now record)))
  | kept {event : Event ι} {reply : Reply} (hbegin : reply ≠ .begin (some .ok))
      (hmark : reply ≠ .mutate (some .ok)) : Effect table event reply table

theorem stamp_newRecord (now later : Seconds) (key : RecordKey) (sessionId : Uint256)
    (alpha : Bytes 32) (commitment : Uint256) :
    stamp later (newRecord now key sessionId alpha commitment) =
      newRecord now key sessionId alpha commitment := by
  have hne : now.val ≠ 0 := fun hzero => absurd now.property (by rw [hzero]; decide)
  simp [stamp, newRecord, hne]

variable {δ ι : Type} [DecidableEq δ] {sha256 : List UInt8 → δ}
  {hinj : Injective sha256} {seals : Sealing ι}
  {table : RecordKey → Option NonceRecord} {c : Wallet δ}

theorem createChange_ok {later : Seconds} {record : NonceRecord} {existing : Option NonceRecord}
    {p : NonceRecord × NonceRecord} (h : createChange later record existing = .ok p) :
    evaluateCreate existing record = .ok ∧ p = (stamp later record, record) := by
  unfold createChange at h
  split at h
  · rename_i hdecision
    exact ⟨hdecision, (Except.ok.inj h).symm⟩
  · contradiction
  · contradiction

theorem createChange_error {later : Seconds} {record : NonceRecord}
    {existing : Option NonceRecord} {r : BeginResult}
    (h : createChange later record existing = .error r) : r ≠ .ok := by
  unfold createChange at h
  split at h
  · contradiction
  · exact Except.error.inj h ▸ nofun
  · exact Except.error.inj h ▸ nofun

variable (h : Coherent (format sha256 hinj) seals table c)
include h

theorem effect_begin (env : Env ι) (key : RecordKey) (sessionId : Uint256) (alpha : Bytes 32)
    (commitment : Uint256) :
    ∃ table', Effect table (.call env (.begin key sessionId alpha commitment))
      (.begin (begin (format sha256 hinj) seals env key sessionId alpha commitment c).1) table' ∧
      Coherent (format sha256 hinj) seals table'
        (begin (format sha256 hinj) seals env key sessionId alpha commitment c).2 := by
  unfold begin
  split
  · exact ⟨table, .kept nofun nofun, h⟩
  · simp only
    generalize hamend : amend (format sha256 hinj) seals env.toConditions key _ c = result
    obtain ⟨outcome, c'⟩ := result
    have hsame : ∀ existing p, createChange env.later
        (newRecord env.now key sessionId alpha commitment) existing = .ok p → p.1 = p.2 := by
      intro existing p hp
      rw [(createChange_ok hp).2]
      exact stamp_newRecord _ _ _ _ _ _
    rcases h.amend hsame hamend with
      ⟨existing, record, rfl, hshown, -, hchange, hc'⟩ | ⟨hne, hc', href⟩
    · obtain ⟨hdecision, hrecord⟩ := createChange_ok hchange
      obtain rfl := (Prod.mk.inj hrecord).2
      rw [hshown.eq (stable_of_id fun _ => rfl)] at hdecision
      exact ⟨_, .began rfl hdecision, hc'⟩
    · have hnot : outcome.result BeginResult.locked .writeFailed .ok ≠ some .ok := by
        refine Outcome.result_ne hne nofun nofun fun r hr => ?_
        obtain ⟨existing, -, -, hrefused⟩ := href r hr
        exact createChange_error hrefused
      exact ⟨table, .kept (fun heq => hnot (Reply.begin.inj heq)) nofun, hc'⟩

theorem effect_markTPublished (env : Env ι) (key : RecordKey) :
    ∃ table', Effect table (.call env (.markTPublished key))
      (.mutate (markTPublished (format sha256 hinj) seals env key c).1) table' ∧
      Coherent (format sha256 hinj) seals table'
        (markTPublished (format sha256 hinj) seals env key c).2 := by
  unfold markTPublished
  simp only
  generalize hamend : amend (format sha256 hinj) seals env.toConditions key _ c = result
  obtain ⟨outcome, c'⟩ := result
  have hsame : ∀ existing p, publishChange env.now existing = .ok p → p.1 = p.2 := by
    intro existing p hp
    cases existing with
    | none => contradiction
    | some record => rw [← Except.ok.inj hp]
  rcases h.amend hsame hamend with
    ⟨existing, record, rfl, hshown, -, hchange, hc'⟩ | ⟨hne, hc', href⟩
  · rw [hshown.eq (stable_of_id fun _ => rfl)] at hchange
    cases hold : table key with
    | none =>
      rw [hold] at hchange
      contradiction
    | some old =>
      rw [hold] at hchange
      obtain rfl := (Prod.mk.inj (Except.ok.inj hchange)).1
      have hkey : old.key = key := h.keyed key old hold
      refine ⟨_, .marked hold hkey, ?_⟩
      rw [← hkey]
      exact hc'
  · have hnot : outcome.result MutateResult.locked .writeFailed .ok ≠ some .ok := by
      refine Outcome.result_ne hne nofun nofun fun r hr => ?_
      obtain ⟨existing, -, -, hrefused⟩ := href r hr
      cases existing with
      | none => exact Except.error.inj hrefused ▸ nofun
      | some record => contradiction
    exact ⟨table, .kept nofun fun heq => hnot (Reply.mutate.inj heq), hc'⟩

theorem coherent_get (env : Env ι) (key : RecordKey) :
    Coherent (format sha256 hinj) seals table (get (format sha256 hinj) seals env key c).2 := by
  unfold get
  simp only
  generalize hamend : amend (format sha256 hinj) seals env.toConditions key _ c = result
  obtain ⟨outcome, c'⟩ := result
  have hnever : ∀ existing p, lookupChange existing ≠ .ok p := by
    intro existing p
    cases existing <;> exact nofun
  rcases h.amend (fun existing p hp => absurd hp (hnever existing p)) hamend with
    ⟨existing, record, -, -, -, hchange, -⟩ | ⟨-, hc', -⟩
  · exact absurd hchange (hnever existing _)
  · exact hc'

theorem coherent_loadFromDB (env : Env ι) :
    Coherent (format sha256 hinj) seals table
      (loadFromDB (format sha256 hinj) seals env c).2 := by
  unfold loadFromDB
  split
  · exact h
  · generalize hload : ensureLoaded (format sha256 hinj) seals env.toConditions c = result
    obtain ⟨loading, c'⟩ := result
    have hc' := (h.ensureLoaded hload).1
    cases loading <;> exact hc'

/-- Every event has an effect on the table, and the wallet keeps to the table. -/
theorem effect_perform (event : Event ι) :
    ∃ table', Effect table event (reply (format sha256 hinj) seals c event) table' ∧
      Coherent (format sha256 hinj) seals table' (step (format sha256 hinj) seals c event) := by
  cases event with
  | restart => exact ⟨table, .kept nofun nofun, h.restart⟩
  | call env call =>
    cases call with
    | begin key sessionId alpha commitment =>
      exact effect_begin h env key sessionId alpha commitment
    | markTPublished key => exact effect_markTPublished h env key
    | get key => exact ⟨table, .kept nofun nofun, coherent_get h env key⟩
    | loadFromDB => exact ⟨table, .kept nofun nofun, coherent_loadFromDB h env⟩

end Effects

section Slots

variable {key : RecordKey} {sessionId : Uint256}

/-- The record under the key is of the session. -/
def Held (key : RecordKey) (sessionId : Uint256) (table : RecordKey → Option NonceRecord) : Prop :=
  ∃ record, table key = some record ∧ record.sessionId = sessionId

/-- The record under the key is of the session, and its secret has not been published. -/
def InFlight (key : RecordKey) (sessionId : Uint256) (table : RecordKey → Option NonceRecord) :
    Prop :=
  ∃ record, table key = some record ∧ record.sessionId = sessionId ∧ record.tPublished = false

/-- The event marks the secret of the key as published. -/
def Marks {ι : Type} (key : RecordKey) (event : Event ι) (reply : Reply) : Prop :=
  ∃ env, event = .call env (.markTPublished key) ∧ reply = .mutate (some .ok)

theorem evaluateCreate_some {existing proposed : NonceRecord}
    (h : evaluateCreate (some existing) proposed = .ok) :
    existing.sessionId = proposed.sessionId ∧ existing.tPublished = true := by
  simp only [evaluateCreate] at h
  split_ifs at h with hkey hsession hpublished
  exact ⟨not_not.mp hsession, by simpa using hpublished⟩

variable {ι : Type} {table table' : RecordKey → Option NonceRecord} {event : Event ι}
  {reply : Reply}

theorem Held.effect (h : Held key sessionId table) (heffect : Effect table event reply table') :
    Held key sessionId table' := by
  obtain ⟨record, hrecord, hsession⟩ := h
  cases heffect with
  | @began env key' sessionId' alpha commitment record' hnew hdecision =>
    by_cases hkey : key = key'
    · subst hkey
      rw [hrecord] at hdecision
      have hsame := (evaluateCreate_some hdecision).1
      exact ⟨record', update_self .., hsame.symm.trans hsession⟩
    · exact ⟨record, by rw [update_of_ne hkey, hrecord], hsession⟩
  | @marked env key' record' hold hrecordKey =>
    by_cases hkey : key = key'
    · subst hkey
      obtain rfl := some.inj (hrecord.symm.trans hold)
      exact ⟨_, update_self .., hsession⟩
    · exact ⟨record, by rw [update_of_ne hkey, hrecord], hsession⟩
  | kept => exact ⟨record, hrecord, hsession⟩

theorem InFlight.effect (h : InFlight key sessionId table)
    (heffect : Effect table event reply table') (hmarks : ¬ Marks key event reply) :
    InFlight key sessionId table' := by
  obtain ⟨record, hrecord, hsession, hflight⟩ := h
  cases heffect with
  | @began env key' sessionId' alpha commitment record' hnew hdecision =>
    by_cases hkey : key = key'
    · subst hkey
      rw [hrecord] at hdecision
      have hpublished := (evaluateCreate_some hdecision).2
      rw [hflight] at hpublished
      contradiction
    · exact ⟨record, by rw [update_of_ne hkey, hrecord], hsession, hflight⟩
  | @marked env key' record' hold hrecordKey =>
    have hkey : key ≠ key' := fun hkey => hmarks ⟨env, by rw [hkey], rfl⟩
    exact ⟨record, by rw [update_of_ne hkey, hrecord], hsession, hflight⟩
  | kept => exact ⟨record, hrecord, hsession, hflight⟩

/-- A record that was begun is in flight, and was begun where none was held by another session or
in flight. -/
theorem Effect.of_begin {env : Env ι} {alpha : Bytes 32} {commitment : Uint256}
    (heffect : Effect table (.call env (.begin key sessionId alpha commitment))
      (.begin (some .ok)) table') :
    InFlight key sessionId table' ∧ (∀ other, Held key other table → other = sessionId) ∧
      ∀ other, ¬ InFlight key other table := by
  cases heffect with
  | began hnew hdecision =>
    refine ⟨⟨_, update_self .., by rw [hnew]; exact ⟨rfl, rfl⟩⟩, ?_, ?_⟩
    · rintro other ⟨record, hrecord, rfl⟩
      rw [hrecord] at hdecision
      rw [(evaluateCreate_some hdecision).1, hnew]
      rfl
    · rintro other ⟨record, hrecord, -, hflight⟩
      rw [hrecord] at hdecision
      rw [(evaluateCreate_some hdecision).2] at hflight
      contradiction
  | kept hbegin => exact absurd rfl hbegin

end Slots

section Runs

variable {δ ι : Type} [DecidableEq δ] {sha256 : List UInt8 → δ} {hinj : Injective sha256}
  {seals : Sealing ι}

theorem simulates_step (hinj : Injective sha256) (seals : Sealing ι) :
    Simulates (format sha256 hinj) seals (step (format sha256 hinj) seals)
      (fun c event table table' =>
        Effect table event (reply (format sha256 hinj) seals c event) table') :=
  fun _ event _ hc => effect_perform hc event

def run (fmt : Format RecordKey δ NonceRecord) (seals : Sealing ι) (events : List (Event ι)) :
    Wallet δ :=
  events.foldl (step fmt seals) newWallet

theorem keeps_run (hinj : Injective sha256) (seals : Sealing ι)
    (events : List (Event ι)) :
    Keeps (format sha256 hinj) seals (fun _ => True) (run (format sha256 hinj) seals events) := by
  have hnew : Keeps (format sha256 hinj) seals (fun _ => True) newWallet :=
    ⟨fun _ => none, coherent_empty, trivial⟩
  refine hnew.run (simulates_step hinj seals) ?_
  exact always_of_forall (fun _ _ _ _ _ _ => trivial) _

/-- What a wallet has of its records: nothing before it has loaded them, and then what another
process would load, if the rows are small enough to be read. -/
structure CopyExact (fmt : Format RecordKey δ NonceRecord) (seals : Sealing ι) (c : Wallet δ) :
    Prop where
  unloaded : c.loaded = false → c.store = fun _ => none
  fresh : c.loaded = true → ∀ store, freshLoad fmt seals c = some store → store = c.store
  loads : (∀ row ∈ c.rows, row.2.length ≤ maxSize) → (freshLoad fmt seals c).isSome = true

theorem copyExact_of_coherent {table : RecordKey → Option NonceRecord} {c : Wallet δ}
    (h : Coherent (format sha256 hinj) seals table c) :
    CopyExact (format sha256 hinj) seals c where
  unloaded := h.unloaded
  fresh hloaded store hstore := by
    rw [h.freshLoad_eq (small_of_freshLoad hstore), some.injEq] at hstore
    rw [← hstore]
    funext key
    have hshown : Shown (format sha256 hinj) table key (c.store key) := h.loaded hloaded key
    rw [hshown.eq (stable_of_id fun _ => rfl)]
    exact map_id' ..
  loads hsmall := by
    rw [h.freshLoad_eq hsmall]
    rfl

/-- Two records that were begun under one key are of one session, with the secret marked as
published between them, and the copy in memory is exact. -/
theorem one_session_in_flight (hinj : Injective sha256) (seals : Sealing ι) :
    (∀ (pre mid : List (Event ι)) (env env' : Env ι) (key : RecordKey)
      (sessionId sessionId' : Uint256) (alpha alpha' : Bytes 32) (commitment commitment' : Uint256)
      (c c' : Wallet δ), c = run (format sha256 hinj) seals pre →
      reply (format sha256 hinj) seals c (.call env (.begin key sessionId alpha commitment)) =
        .begin (some .ok) →
      c' = step (format sha256 hinj) seals c (.call env (.begin key sessionId alpha commitment)) →
      reply (format sha256 hinj) seals (mid.foldl (step (format sha256 hinj) seals) c')
        (.call env' (.begin key sessionId' alpha' commitment')) = .begin (some .ok) →
      sessionId' = sessionId ∧
      Sometime (step (format sha256 hinj) seals)
        (fun c event => Marks key event (reply (format sha256 hinj) seals c event)) c' mid) ∧
    ∀ events : List (Event ι),
      CopyExact (format sha256 hinj) seals (run (format sha256 hinj) seals events) := by
  constructor
  · intro pre mid env env' key sessionId sessionId' alpha alpha' commitment commitment' c c' hc
      hfirst hc' hsecond
    have hbegun : Keeps (format sha256 hinj) seals (InFlight key sessionId) c' := by
      rw [hc']
      refine (hc ▸ keeps_run hinj seals pre).after (simulates_step hinj seals) ?_
      intro table table' _ heffect
      rw [hfirst] at heffect
      exact heffect.of_begin.1
    constructor
    · have hheld : Keeps (format sha256 hinj) seals (Held key sessionId)
          (mid.foldl (step (format sha256 hinj) seals) c') := by
        have hbegun' : Keeps (format sha256 hinj) seals (Held key sessionId) c' := by
          obtain ⟨table, htable, record, hrecord, hsession, -⟩ := hbegun
          exact ⟨table, htable, record, hrecord, hsession⟩
        refine hbegun'.run (simulates_step hinj seals) ?_
        exact always_of_forall (fun _ _ _ _ hheld heffect => hheld.effect heffect) _
      obtain ⟨table, htable, hheld⟩ := hheld
      obtain ⟨table', heffect, -⟩ := effect_perform htable
        (.call env' (.begin key sessionId' alpha' commitment'))
      rw [hsecond] at heffect
      exact (heffect.of_begin.2.1 _ hheld).symm
    · by_contra hnever
      have hflight : Keeps (format sha256 hinj) seals (InFlight key sessionId)
          (mid.foldl (step (format sha256 hinj) seals) c') := by
        refine hbegun.run (simulates_step hinj seals) ?_
        refine (not_sometime.mp hnever).imp fun _ _ hmarks table table' hflight heffect => ?_
        exact hflight.effect heffect hmarks
      obtain ⟨table, htable, hflight⟩ := hflight
      obtain ⟨table', heffect, -⟩ := effect_perform htable
        (.call env' (.begin key sessionId' alpha' commitment'))
      rw [hsecond] at heffect
      exact heffect.of_begin.2.2 _ hflight
  · intro events
    obtain ⟨table, htable, -⟩ := keeps_run hinj seals events
    exact copyExact_of_coherent htable

end Runs

section Sample

theorem injective_digest : Injective (id : List UInt8 → List UInt8) :=
  injective_id

/-- Messages as their own digests. -/
def sampleFormat : Format RecordKey (List UInt8) NonceRecord := format id injective_digest

def sampleEnv : Env Unit := ⟨⟨false, true, some (), true⟩, ⟨1, by decide⟩, ⟨1, by decide⟩⟩

def sampleKey : RecordKey := ⟨[1], .replicate 32 2, .initiator⟩

def sampleBegin (sessionId : Uint256) : Event Unit :=
  .call sampleEnv (.begin sampleKey sessionId (.replicate 32 4)
    (.replicate 32 5))

def sampleSession : Uint256 := .replicate 32 3

/-- A record, a new process and a refused call. -/
def refusedEvents : List (Event Unit) :=
  [sampleBegin sampleSession, .restart, sampleBegin nullHash]

/-- A refused call in a new process leaves the records unloaded. -/
theorem not_fresh_after_call :
    ∃ store, freshLoad sampleFormat plainSealing (run sampleFormat plainSealing refusedEvents) =
        some store ∧
      store ≠ (run sampleFormat plainSealing refusedEvents).store := by
  have hfresh : (freshLoad sampleFormat plainSealing
      (run sampleFormat plainSealing refusedEvents)).map
        (fun store => (store sampleKey).isSome) = some true := by decide +kernel
  have hempty : ((run sampleFormat plainSealing refusedEvents).store sampleKey).isSome = false := by
    decide +kernel
  obtain ⟨store, hstore, hsome⟩ := map_eq_some_iff.mp hfresh
  refine ⟨store, hstore, fun heq => ?_⟩
  exact Bool.false_ne_true (hempty.symm.trans (heq ▸ hsome))

/-- A second record of the session, after the secret was published. -/
theorem one_session_in_flight_sample :
    Sometime (step sampleFormat plainSealing)
      (fun c event => Marks sampleKey event (reply sampleFormat plainSealing c event))
      (step sampleFormat plainSealing newWallet (sampleBegin sampleSession))
      [.restart, .call sampleEnv (.markTPublished sampleKey)] :=
  ((one_session_in_flight injective_id plainSealing).1 [] _ _ sampleEnv _ _ sampleSession _
    (.replicate 32 6) _ (.replicate 32 7) _ _ rfl (by decide +kernel) rfl
    (by decide +kernel)).2

end Sample

end Pricoin.ClsagNonces
