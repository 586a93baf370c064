import Mathlib.Data.List.Induction
import Pricoin.ClsagNonces

/-!
The wallet's records of MuSig2 nonces. A record is kept for each aggregate key,
message and role before a nonce is published, and the first partial signature binds
it to one aggregate nonce. A nonce that is published again under its record keeps the
binding; a record that is given another nonce loses it.
-/
namespace Pricoin.Musig2Nonces

open ByteStreams Codecs KeyImageFile RecordCodecs DurableRecords Runs List Option Function
open ClsagNonces (Role Seconds Env MutateResult roleCodec fits_roleCodec)

section Records

structure RecordKey where
  aggXonly : Uint256
  msg : Uint256
  role : Role
  deriving DecidableEq

abbrev PubNonce66 := Bytes 66

structure NonceRecord where
  key : RecordKey
  sessionId : Uint256
  pubnonce : PubNonce66
  finalized : Bool
  createdTime : Int64
  updatedTime : Int64
  signedAggHash : Uint256
  deriving DecidableEq

def keyCodec : Codec RecordKey :=
  ((Codec.block 32).pair ((Codec.block 32).pair roleCodec)).via
    (fun k => (k.aggXonly, k.msg, k.role)) (fun p => ⟨p.1, p.2.1, p.2.2⟩)

theorem fits_keyCodec : Fits keyCodec :=
  ((fits_block 32).pair ((fits_block 32).pair fits_roleCodec)).via fun _ => rfl

def recordCodec : Codec NonceRecord :=
  (keyCodec.pair ((Codec.block 32).pair ((Codec.block 66).pair (bool.pair (sint64.pair
    (sint64.pair (Codec.block 32))))))).via
    (fun r => (r.key, r.sessionId, r.pubnonce, r.finalized, r.createdTime, r.updatedTime,
      r.signedAggHash))
    (fun p => ⟨p.1, p.2.1, p.2.2.1, p.2.2.2.1, p.2.2.2.2.1, p.2.2.2.2.2.1, p.2.2.2.2.2.2⟩)

theorem fits_recordCodec : Fits recordCodec :=
  (fits_keyCodec.pair ((fits_block 32).pair ((fits_block 66).pair (fits_bool.pair
    (fits_sint64.pair (fits_sint64.pair (fits_block 32))))))).via fun _ => rfl

def recordDigestTag : List UInt8 := ascii "pricoin/btc-musig2-nonce-record-v1"

/-- What goes into the digest of a key. -/
def digestMessage (k : RecordKey) : List UInt8 :=
  recordDigestTag ++ (k.aggXonly.toList ++ (k.msg.toList ++ [k.role.toByte]))

theorem digestMessage_injective : Injective digestMessage := by
  intro k k' h
  unfold digestMessage at h
  have htail := append_cancel_left h
  obtain ⟨hagg, hbody⟩ := append_inj htail (by simp)
  obtain ⟨hmsg, hrole⟩ := append_inj hbody (by simp)
  cases k
  cases k'
  simp only [cons.injEq, and_true] at hagg hmsg hrole
  rw [List.Vector.toList_injective hagg, List.Vector.toList_injective hmsg,
    Role.toByte_injective hrole]

variable {δ : Type} (sha256 : List UInt8 → δ)

def recordDigest (k : RecordKey) : δ := sha256 (digestMessage k)

/-- Rows that cannot be read are skipped. -/
def format (hinj : Injective sha256) : Format RecordKey δ NonceRecord where
  digest := recordDigest sha256
  digest_injective := hinj.comp digestMessage_injective
  keyOf := NonceRecord.key
  codec := recordCodec
  fits := fits_recordCodec
  lenient := true
  onLoad := id
  keyOf_onLoad _ := rfl

end Records

section Policy

inductive Decision where
  | ok
  | conflictDifferentSession
  | conflictSameSessionInFlight

def evaluateCreate (existing : Option NonceRecord) (proposed : NonceRecord) : Decision :=
  match existing with
  | none => .ok
  | some existing =>
    if existing.key ≠ proposed.key then .conflictDifferentSession
    else if existing.sessionId ≠ proposed.sessionId then .conflictDifferentSession
    else if existing.pubnonce = proposed.pubnonce then .ok
    else if !existing.finalized then .conflictSameSessionInFlight
    else .ok

/-- The record that `TryCreate` puts in memory. -/
def stamp (nowSec : Seconds) (record : NonceRecord) : NonceRecord :=
  let createdTime := if record.createdTime = 0 then nowSec.val else record.createdTime
  { record with createdTime := createdTime, updatedTime := createdTime }

end Policy

section Calls

inductive BeginResult where
  | ok
  | invalidInput
  | locked
  | conflictDifferentSession
  | conflictSameSessionInFlight
  | writeFailed
  deriving DecidableEq

inductive BindResult where
  | ok
  | invalidInput
  | notFound
  | locked
  | writeFailed
  | conflictDifferentAggNonce
  deriving DecidableEq

def newRecord (now : Seconds) (key : RecordKey) (sessionId : Uint256) (pubnonce : PubNonce66) :
    NonceRecord :=
  ⟨key, sessionId, pubnonce, false, now, now, nullHash⟩

/-- What is put in memory and what is written when a record is created. A binding of the prior
record is carried forward, and then the record stands in memory as it is written. -/
def recommit (later : Seconds) (record : NonceRecord) (prior : Option NonceRecord) :
    NonceRecord × NonceRecord :=
  match prior with
  | some old =>
    if old.signedAggHash ≠ nullHash ∧ record.pubnonce = old.pubnonce then
      let bound := { record with signedAggHash := old.signedAggHash }
      (bound, bound)
    else (stamp later record, record)
  | none => (stamp later record, record)

def createChange (later : Seconds) (record : NonceRecord) (existing : Option NonceRecord) :
    Except BeginResult (NonceRecord × NonceRecord) :=
  match evaluateCreate existing record with
  | .ok => .ok (recommit later record existing)
  | .conflictDifferentSession => .error .conflictDifferentSession
  | .conflictSameSessionInFlight => .error .conflictSameSessionInFlight

def finalize (now : Seconds) (record : NonceRecord) : NonceRecord :=
  { record with finalized := true, updatedTime := now }

def finalizeChange (now : Seconds) :
    Option NonceRecord → Except MutateResult (NonceRecord × NonceRecord)
  | none => .error .notFound
  | some record => .ok (finalize now record, finalize now record)

def bindTo (now : Seconds) (aggHash : Uint256) (record : NonceRecord) : NonceRecord :=
  { record with signedAggHash := aggHash, updatedTime := now }

/-- A bound record is not written again. -/
def bindChange (now : Seconds) (aggHash : Uint256) :
    Option NonceRecord → Except BindResult (NonceRecord × NonceRecord)
  | none => .error .notFound
  | some record =>
    if record.signedAggHash ≠ nullHash then
      .error (if record.signedAggHash = aggHash then .ok else .conflictDifferentAggNonce)
    else .ok (bindTo now aggHash record, bindTo now aggHash record)

variable {δ ι : Type} [DecidableEq δ] (fmt : Format RecordKey δ NonceRecord) (seals : Sealing ι)

abbrev Wallet (δ : Type) := Cache RecordKey δ NonceRecord

def begin (env : Env ι) (key : RecordKey) (sessionId : Uint256) (pubnonce : PubNonce66)
    (c : Wallet δ) : Option BeginResult × Wallet δ :=
  if sessionId = nullHash then (some .invalidInput, c)
  else
    let record := newRecord env.now key sessionId pubnonce
    let (outcome, c) := amend fmt seals env.toConditions key (createChange env.later record) c
    (outcome.result .locked .writeFailed .ok, c)

def markFinalized (env : Env ι) (key : RecordKey) (c : Wallet δ) :
    Option MutateResult × Wallet δ :=
  let (outcome, c) := amend fmt seals env.toConditions key (finalizeChange env.now) c
  (outcome.result .locked .writeFailed .ok, c)

def bindAggNonceAndCheck (env : Env ι) (key : RecordKey) (aggHash : Uint256) (c : Wallet δ) :
    Option BindResult × Wallet δ :=
  if aggHash = nullHash then (some .invalidInput, c)
  else
    let (outcome, c) := amend fmt seals env.toConditions key (bindChange env.now aggHash) c
    (outcome.result .locked .writeFailed .ok, c)

inductive Call where
  | begin (key : RecordKey) (sessionId : Uint256) (pubnonce : PubNonce66)
  | markFinalized (key : RecordKey)
  | bindAggNonceAndCheck (key : RecordKey) (aggHash : Uint256)

inductive Event (ι : Type) where
  | call (env : Env ι) (call : Call)
  | restart

inductive Reply where
  | begin (result : Option BeginResult)
  | mutate (result : Option MutateResult)
  | bind (result : Option BindResult)
  | none
  deriving DecidableEq

/-- What an event gives back and leaves behind. -/
def perform (c : Wallet δ) : Event ι → Reply × Wallet δ
  | .call env (.begin key sessionId pubnonce) =>
    let (result, c) := begin fmt seals env key sessionId pubnonce c
    (.begin result, c)
  | .call env (.markFinalized key) =>
    let (result, c) := markFinalized fmt seals env key c
    (.mutate result, c)
  | .call env (.bindAggNonceAndCheck key aggHash) =>
    let (result, c) := bindAggNonceAndCheck fmt seals env key aggHash c
    (.bind result, c)
  | .restart => (.none, DurableRecords.restart c)

def reply (c : Wallet δ) (event : Event ι) : Reply := (perform fmt seals c event).1

def step (c : Wallet δ) (event : Event ι) : Wallet δ := (perform fmt seals c event).2

/-- Events on a wallet that starts without records. -/
def run (events : List (Event ι)) : Wallet δ :=
  events.foldl (step fmt seals) ⟨[], fun _ => none, false⟩

end Calls

section Effects

/-- What an event does to the table of records: a record is begun, bound, finalised, found bound,
or nothing changes. -/
inductive Effect {ι : Type} (table : RecordKey → Option NonceRecord) :
    Event ι → Reply → (RecordKey → Option NonceRecord) → Prop where
  | began {env : Env ι} {key : RecordKey} {sessionId : Uint256} {pubnonce : PubNonce66}
      {reply : Reply} (hreply : reply = .begin (some .ok)) :
      Effect table (.call env (.begin key sessionId pubnonce)) reply
        (Function.update table key
          (some (recommit env.later (newRecord env.now key sessionId pubnonce) (table key)).2))
  | finalized {env : Env ι} {key : RecordKey} {record : NonceRecord}
      (hrecord : table key = some record) {reply : Reply} (hreply : reply = .mutate (some .ok)) :
      Effect table (.call env (.markFinalized key)) reply
        (Function.update table key (some (finalize env.now record)))
  | bound {env : Env ι} {key : RecordKey} {aggHash : Uint256} {record : NonceRecord}
      (hrecord : table key = some record) (hfree : record.signedAggHash = nullHash)
      (haggHash : aggHash ≠ nullHash) {reply : Reply} (hreply : reply = .bind (some .ok)) :
      Effect table (.call env (.bindAggNonceAndCheck key aggHash)) reply
        (Function.update table key (some (bindTo env.now aggHash record)))
  | found {env : Env ι} {key : RecordKey} {aggHash : Uint256} {record : NonceRecord}
      (hrecord : table key = some record) (hbound : record.signedAggHash = aggHash)
      (haggHash : aggHash ≠ nullHash) {reply : Reply} (hreply : reply = .bind (some .ok)) :
      Effect table (.call env (.bindAggNonceAndCheck key aggHash)) reply table
  | kept {event : Event ι} {reply : Reply} (hreply : reply ≠ .bind (some .ok)) :
      Effect table event reply table

theorem stamp_newRecord (now later : Seconds) (key : RecordKey) (sessionId : Uint256)
    (pubnonce : PubNonce66) :
    stamp later (newRecord now key sessionId pubnonce) = newRecord now key sessionId pubnonce := by
  have hne : now.val ≠ 0 := fun hzero => absurd now.property (by rw [hzero]; decide)
  simp [stamp, newRecord, hne]

/-- The record in memory is the one that is written. -/
theorem recommit_same (now later : Seconds) (key : RecordKey) (sessionId : Uint256)
    (pubnonce : PubNonce66) (prior : Option NonceRecord) :
    (recommit later (newRecord now key sessionId pubnonce) prior).1 =
      (recommit later (newRecord now key sessionId pubnonce) prior).2 := by
  unfold recommit
  split
  · split
    · rfl
    · exact stamp_newRecord _ _ _ _ _
  · exact stamp_newRecord _ _ _ _ _

theorem recommit_key (later : Seconds) (record : NonceRecord) (prior : Option NonceRecord) :
    (recommit later record prior).2.key = record.key := by
  unfold recommit
  split
  · split <;> rfl
  · rfl

theorem recommit_pubnonce (later : Seconds) (record : NonceRecord) (prior : Option NonceRecord) :
    (recommit later record prior).2.pubnonce = record.pubnonce := by
  unfold recommit
  split
  · split <;> rfl
  · rfl

/-- A binding for the same nonce is carried forward. -/
theorem recommit_signedAggHash (later : Seconds) {record old : NonceRecord}
    (hbound : old.signedAggHash ≠ nullHash) (hpubnonce : record.pubnonce = old.pubnonce) :
    (recommit later record (some old)).2.signedAggHash = old.signedAggHash := by
  simp [recommit, hbound, hpubnonce]

variable {δ ι : Type} [DecidableEq δ] {sha256 : List UInt8 → δ}
  {hinj : Injective sha256} {seals : Sealing ι}
  {table : RecordKey → Option NonceRecord} {c : Wallet δ}

theorem createChange_ok {later : Seconds} {record : NonceRecord} {existing : Option NonceRecord}
    {p : NonceRecord × NonceRecord} (h : createChange later record existing = .ok p) :
    p = recommit later record existing := by
  unfold createChange at h
  split at h
  · exact (Except.ok.inj h).symm
  · contradiction
  · contradiction

theorem bindChange_ok {now : Seconds} {aggHash : Uint256} {existing : Option NonceRecord}
    {p : NonceRecord × NonceRecord} (h : bindChange now aggHash existing = .ok p) :
    ∃ record, existing = some record ∧ record.signedAggHash = nullHash ∧
      p = (bindTo now aggHash record, bindTo now aggHash record) := by
  cases existing with
  | none => contradiction
  | some record =>
    simp only [bindChange] at h
    split_ifs at h with hbound
    exact ⟨record, rfl, not_not.mp hbound, (Except.ok.inj h).symm⟩

theorem bindChange_error_ok {now : Seconds} {aggHash : Uint256} {existing : Option NonceRecord}
    (h : bindChange now aggHash existing = .error .ok) :
    ∃ record, existing = some record ∧ record.signedAggHash = aggHash := by
  cases existing with
  | none => cases h
  | some record =>
    simp only [bindChange] at h
    split_ifs at h with hbound hsame
    · exact ⟨record, rfl, hsame⟩
    · cases h

variable (h : Coherent (format sha256 hinj) seals table c)
include h

theorem effect_begin (env : Env ι) (key : RecordKey) (sessionId : Uint256)
    (pubnonce : PubNonce66) :
    ∃ table', Effect table (.call env (.begin key sessionId pubnonce))
      (.begin (begin (format sha256 hinj) seals env key sessionId pubnonce c).1) table' ∧
      Coherent (format sha256 hinj) seals table'
        (begin (format sha256 hinj) seals env key sessionId pubnonce c).2 := by
  unfold begin
  split
  · exact ⟨table, .kept nofun, h⟩
  · simp only
    generalize hamend : amend (format sha256 hinj) seals env.toConditions key _ c = result
    obtain ⟨outcome, c'⟩ := result
    have hsame : ∀ existing p, createChange env.later
        (newRecord env.now key sessionId pubnonce) existing = .ok p → p.1 = p.2 := by
      intro existing p hp
      rw [createChange_ok hp]
      exact recommit_same _ _ _ _ _ _
    rcases h.amend hsame hamend with ⟨existing, record, rfl, hshown, -, hchange, hc'⟩ | ⟨-, hc', -⟩
    · rw [hshown.eq (stable_of_id fun _ => rfl)] at hchange
      have hrecord : record = (recommit env.later (newRecord env.now key sessionId pubnonce)
          (table key)).2 := congrArg Prod.snd (createChange_ok hchange)
      have hkey : record.key = key := by
        rw [hrecord]
        exact recommit_key _ _ _
      refine ⟨_, .began rfl, ?_⟩
      rw [← hrecord]
      nth_rewrite 1 [← hkey]
      exact hc'
    · exact ⟨table, .kept nofun, hc'⟩

theorem effect_markFinalized (env : Env ι) (key : RecordKey) :
    ∃ table', Effect table (.call env (.markFinalized key))
      (.mutate (markFinalized (format sha256 hinj) seals env key c).1) table' ∧
      Coherent (format sha256 hinj) seals table'
        (markFinalized (format sha256 hinj) seals env key c).2 := by
  unfold markFinalized
  simp only
  generalize hamend : amend (format sha256 hinj) seals env.toConditions key _ c = result
  obtain ⟨outcome, c'⟩ := result
  have hsame : ∀ existing p, finalizeChange env.now existing = .ok p → p.1 = p.2 := by
    intro existing p hp
    cases existing with
    | none => contradiction
    | some record => rw [← Except.ok.inj hp]
  rcases h.amend hsame hamend with ⟨existing, record, rfl, hshown, -, hchange, hc'⟩ | ⟨-, hc', -⟩
  · rw [hshown.eq (stable_of_id fun _ => rfl)] at hchange
    cases hold : table key with
    | none =>
      rw [hold] at hchange
      contradiction
    | some old =>
      rw [hold] at hchange
      obtain rfl := (Prod.mk.inj (Except.ok.inj hchange)).1
      have hkey : old.key = key := h.keyed key old hold
      refine ⟨_, .finalized hold rfl, ?_⟩
      rw [← hkey]
      exact hc'
  · exact ⟨table, .kept nofun, hc'⟩

theorem effect_bindAggNonceAndCheck (env : Env ι) (key : RecordKey) (aggHash : Uint256) :
    ∃ table', Effect table (.call env (.bindAggNonceAndCheck key aggHash))
      (.bind (bindAggNonceAndCheck (format sha256 hinj) seals env key aggHash c).1) table' ∧
      Coherent (format sha256 hinj) seals table'
        (bindAggNonceAndCheck (format sha256 hinj) seals env key aggHash c).2 := by
  unfold bindAggNonceAndCheck
  split
  · exact ⟨table, .kept nofun, h⟩
  · rename_i hnull
    simp only
    generalize hamend : amend (format sha256 hinj) seals env.toConditions key _ c = result
    obtain ⟨outcome, c'⟩ := result
    have hsame : ∀ existing p, bindChange env.now aggHash existing = .ok p → p.1 = p.2 := by
      intro existing p hp
      obtain ⟨record, -, -, rfl⟩ := bindChange_ok hp
      rfl
    rcases h.amend hsame hamend with
      ⟨existing, record, rfl, hshown, -, hchange, hc'⟩ | ⟨hne, hc', hrefused⟩
    · rw [hshown.eq (stable_of_id fun _ => rfl)] at hchange
      obtain ⟨old, hold, hfree, hbind⟩ := bindChange_ok hchange
      obtain rfl := (Prod.mk.inj hbind).1
      have hkey : old.key = key := h.keyed key old hold
      refine ⟨_, .bound hold hfree hnull rfl, ?_⟩
      rw [← hkey]
      exact hc'
    · by_cases hok : outcome = .refused .ok
      · obtain ⟨existing, hshown, -, herror⟩ := hrefused .ok hok
        rw [hshown.eq (stable_of_id fun _ => rfl)] at herror
        obtain ⟨old, hold, hbound⟩ := bindChange_error_ok herror
        exact ⟨table, .found hold hbound hnull (by rw [hok]; rfl), hc'⟩
      · have hnot : outcome.result BindResult.locked .writeFailed .ok ≠ some .ok := by
          refine Outcome.result_ne hne nofun nofun fun r hr hrok => ?_
          exact hok (hrok ▸ hr)
        exact ⟨table, .kept fun heq => hnot (Reply.bind.inj heq), hc'⟩

/-- Every event has an effect on the table, and the wallet keeps to the table. -/
theorem effect_perform (event : Event ι) :
    ∃ table', Effect table event (reply (format sha256 hinj) seals c event) table' ∧
      Coherent (format sha256 hinj) seals table' (step (format sha256 hinj) seals c event) := by
  cases event with
  | restart => exact ⟨table, .kept nofun, h.restart⟩
  | call env call =>
    cases call with
    | begin key sessionId pubnonce => exact effect_begin h env key sessionId pubnonce
    | markFinalized key => exact effect_markFinalized h env key
    | bindAggNonceAndCheck key aggHash => exact effect_bindAggNonceAndCheck h env key aggHash

end Effects

section Signing

variable {δ ι : Type} [DecidableEq δ]

section Statement

variable (fmt : Format RecordKey δ NonceRecord) (seals : Sealing ι)

/-- An aggregate nonce was accepted under the key while the nonce was the recorded one. -/
def Signs (events : List (Event ι)) (key : RecordKey) (pubnonce : PubNonce66)
    (aggHash : Uint256) : Prop :=
  ∃ pre post env record, events = pre ++ .call env (.bindAggNonceAndCheck key aggHash) :: post ∧
    reply fmt seals (run fmt seals pre) (.call env (.bindAggNonceAndCheck key aggHash)) =
      .bind (some .ok) ∧
    recorded fmt seals (run fmt seals pre) key = some record ∧ record.pubnonce = pubnonce

/-- A nonce that has signed is only begun again where it is still the recorded one. -/
def Undisplaced (pre : List (Event ι)) : Event ι → Prop
  | .call _ (.begin key _ pubnonce) => ∀ aggHash, Signs fmt seals pre key pubnonce aggHash →
    ∃ record, recorded fmt seals (run fmt seals pre) key = some record ∧
      record.pubnonce = pubnonce
  | _ => True

end Statement

variable {fmt : Format RecordKey δ NonceRecord} {seals : Sealing ι}
  {key : RecordKey} {pubnonce : PubNonce66} {aggHash : Uint256}

/-- A signature is one of the events before, or the last event is. -/
theorem Signs.of_append {events : List (Event ι)} {event : Event ι}
    (h : Signs fmt seals (events ++ [event]) key pubnonce aggHash) :
    Signs fmt seals events key pubnonce aggHash ∨
      ∃ env record, event = .call env (.bindAggNonceAndCheck key aggHash) ∧
        reply fmt seals (run fmt seals events) event = .bind (some .ok) ∧
        recorded fmt seals (run fmt seals events) key = some record ∧
        record.pubnonce = pubnonce := by
  obtain ⟨pre, post, env, record, hsplit, hreply, hrecorded, hpubnonce⟩ := h
  rcases eq_nil_or_concat post with rfl | ⟨post', last, rfl⟩
  · obtain ⟨rfl, hlast⟩ := append_inj' hsplit rfl
    obtain rfl := singleton_inj.mp hlast
    exact .inr ⟨env, record, rfl, hreply, hrecorded, hpubnonce⟩
  · rw [concat_eq_append, ← cons_append, ← append_assoc] at hsplit
    obtain ⟨rfl, -⟩ := append_inj' hsplit rfl
    exact .inl ⟨pre, post', env, record, rfl, hreply, hrecorded, hpubnonce⟩

/-- If the nonce is the one in the table, it is bound to the aggregate nonce. -/
structure Tied (table : RecordKey → Option NonceRecord) (key : RecordKey)
    (pubnonce : PubNonce66) (aggHash : Uint256) : Prop where
  aggHash_ne : aggHash ≠ nullHash
  bound : ∀ record, table key = some record → record.pubnonce = pubnonce →
    record.signedAggHash = aggHash

variable {table table' : RecordKey → Option NonceRecord} {event : Event ι} {reply : Reply}

/-- A binding lasts, unless the nonce is begun again after it was replaced. -/
theorem Tied.effect (h : Tied table key pubnonce aggHash)
    (heffect : Effect table event reply table')
    (hbegin : ∀ env sessionId, event = .call env (.begin key sessionId pubnonce) →
      ∃ record, table key = some record ∧ record.pubnonce = pubnonce) :
    Tied table' key pubnonce aggHash := by
  refine ⟨h.aggHash_ne, fun record hrecord hpubnonce => ?_⟩
  cases heffect with
  | @began env key' sessionId pubnonce' =>
    by_cases hkey : key = key'
    · subst hkey
      rw [update_self, some.injEq] at hrecord
      obtain rfl : pubnonce' = pubnonce := by
        rw [← hpubnonce, ← hrecord, recommit_pubnonce]
        rfl
      obtain ⟨old, hold, holdNonce⟩ := hbegin env sessionId rfl
      have hbound := h.bound old hold holdNonce
      have hne : old.signedAggHash ≠ nullHash := hbound ▸ h.aggHash_ne
      rw [← hrecord, hold, recommit_signedAggHash env.later hne holdNonce.symm, hbound]
    · rw [update_of_ne hkey] at hrecord
      exact h.bound record hrecord hpubnonce
  | @finalized env key' old hold =>
    by_cases hkey : key = key'
    · subst hkey
      rw [update_self, some.injEq] at hrecord
      subst hrecord
      exact h.bound old hold hpubnonce
    · rw [update_of_ne hkey] at hrecord
      exact h.bound record hrecord hpubnonce
  | @bound env key' aggHash' old hold hfree =>
    by_cases hkey : key = key'
    · subst hkey
      rw [update_self, some.injEq] at hrecord
      subst hrecord
      -- a free record has no binding that could be lost
      exact absurd ((h.bound old hold hpubnonce).symm.trans hfree) h.aggHash_ne
    · rw [update_of_ne hkey] at hrecord
      exact h.bound record hrecord hpubnonce
  | found => exact h.bound record hrecord hpubnonce
  | kept => exact h.bound record hrecord hpubnonce

/-- An accepted aggregate nonce is the one of the record, before if it had one and after. -/
theorem Effect.of_bind {env : Env ι} {record : NonceRecord}
    (heffect : Effect table (.call env (.bindAggNonceAndCheck key aggHash)) (.bind (some .ok))
      table')
    (hrecord : table key = some record) :
    (record.signedAggHash = nullHash ∨ record.signedAggHash = aggHash) ∧
      Tied table' key record.pubnonce aggHash := by
  cases heffect with
  | bound hold hfree haggHash =>
    obtain rfl := some.inj (hrecord.symm.trans hold)
    refine ⟨.inl hfree, haggHash, fun record' hrecord' _ => ?_⟩
    rw [update_self, some.injEq] at hrecord'
    rw [← hrecord']
    rfl
  | found hold hbound haggHash =>
    obtain rfl := some.inj (hrecord.symm.trans hold)
    refine ⟨.inr hbound, haggHash, fun record' hrecord' _ => ?_⟩
    obtain rfl := some.inj (hrecord.symm.trans hrecord')
    exact hbound
  | kept hreply => exact absurd rfl hreply

variable {sha256 : List UInt8 → δ} {hinj : Injective sha256}

/-- Every nonce that has signed is tied to its aggregate nonce, and has no other. -/
structure OneEach (hinj : Injective sha256) (seals : Sealing ι)
    (events : List (Event ι)) (table : RecordKey → Option NonceRecord) : Prop where
  tied : ∀ key pubnonce aggHash, Signs (format sha256 hinj) seals events key pubnonce aggHash →
    Tied table key pubnonce aggHash
  unique : ∀ key pubnonce aggHash aggHash',
    Signs (format sha256 hinj) seals events key pubnonce aggHash →
    Signs (format sha256 hinj) seals events key pubnonce aggHash' → aggHash = aggHash'

/-- An aggregate nonce that is accepted now is the one that was accepted before. -/
theorem OneEach.eq_of_bind {events : List (Event ι)} {env : Env ι} {record : NonceRecord}
    {aggHash' : Uint256} (h : OneEach hinj seals events table)
    (heffect : Effect table (.call env (.bindAggNonceAndCheck key aggHash)) (.bind (some .ok))
      table')
    (hrecord : table key = some record)
    (hsigns : Signs (format sha256 hinj) seals events key record.pubnonce aggHash') :
    aggHash = aggHash' := by
  have htied := h.tied key record.pubnonce aggHash' hsigns
  have hbound := htied.bound record hrecord rfl
  rcases (heffect.of_bind hrecord).1 with hfree | hsame
  · exact absurd (hbound.symm.trans hfree) htied.aggHash_ne
  · exact hsame.symm.trans hbound

theorem OneEach.step {events : List (Event ι)}
    (h : OneEach hinj seals events table)
    (hc : Coherent (format sha256 hinj) seals table (run (format sha256 hinj) seals events))
    (heffect : Effect table event
      (Musig2Nonces.reply (format sha256 hinj) seals (run (format sha256 hinj) seals events) event)
      table')
    (hnew : Undisplaced (format sha256 hinj) seals events event) :
    OneEach hinj seals (events ++ [event]) table' := by
  have htable : ∀ key record,
      recorded (format sha256 hinj) seals (run (format sha256 hinj) seals events) key =
        some record → table key = some record :=
    fun key record hrecorded => hc.table_of_recorded (stable_of_id fun _ => rfl) hrecorded
  constructor
  · intro key pubnonce aggHash hsigns
    rcases hsigns.of_append with hbefore | ⟨env, record, rfl, hreply, hrecorded, rfl⟩
    · refine (h.tied key pubnonce aggHash hbefore).effect heffect ?_
      rintro env sessionId rfl
      obtain ⟨record, hrecorded, hpubnonce⟩ := hnew aggHash hbefore
      exact ⟨record, htable key record hrecorded, hpubnonce⟩
    · rw [hreply] at heffect
      exact (heffect.of_bind (htable key record hrecorded)).2
  · intro key pubnonce aggHash aggHash' hsigns hsigns'
    rcases hsigns.of_append with hbefore | ⟨env, record, rfl, hreply, hrecorded, rfl⟩
    · rcases hsigns'.of_append with hbefore' | ⟨env, record, rfl, hreply, hrecorded, rfl⟩
      · exact h.unique key pubnonce aggHash aggHash' hbefore hbefore'
      · rw [hreply] at heffect
        exact (h.eq_of_bind heffect (htable key record hrecorded) hbefore).symm
    · rcases hsigns'.of_append with hbefore' | ⟨env', record', hevent, -, -, -⟩
      · rw [hreply] at heffect
        exact h.eq_of_bind heffect (htable key record hrecorded) hbefore'
      · injection hevent with _ hcall
        injection hcall

/-- Under every key a nonce signs for one aggregate nonce, in a run in which no nonce that has
signed is begun again after another one took its place. -/
theorem signs_once (hinj : Injective sha256) (seals : Sealing ι)
    (events : List (Event ι))
    (hundisplaced : ∀ pre event post, events = pre ++ event :: post →
      Undisplaced (format sha256 hinj) seals pre event) :
    ∀ key pubnonce aggHash aggHash',
      Signs (format sha256 hinj) seals events key pubnonce aggHash →
      Signs (format sha256 hinj) seals events key pubnonce aggHash' → aggHash = aggHash' := by
  suffices hinv : ∃ table, Coherent (format sha256 hinj) seals table
      (run (format sha256 hinj) seals events) ∧ OneEach hinj seals events table by
    obtain ⟨table, -, hone⟩ := hinv
    exact hone.unique
  induction events using List.reverseRecOn with
  | nil =>
    have hnone : ∀ key pubnonce aggHash,
        ¬ Signs (format sha256 hinj) seals [] key pubnonce aggHash := by
      rintro key pubnonce aggHash ⟨pre, post, env, record, hsplit, -⟩
      simp at hsplit
    refine ⟨fun _ => none, coherent_empty, ?_, ?_⟩
    · exact fun key pubnonce aggHash hsigns => absurd hsigns (hnone key pubnonce aggHash)
    · exact fun key pubnonce aggHash _ hsigns => absurd hsigns (hnone key pubnonce aggHash)
  | append_singleton events event ih =>
    obtain ⟨table, hc, hone⟩ := ih fun pre e post hsplit =>
      hundisplaced pre e (post ++ [event]) (by rw [hsplit]; simp)
    obtain ⟨table', heffect, hc'⟩ := effect_perform hc event
    have hrun : run (format sha256 hinj) seals (events ++ [event]) =
        Musig2Nonces.step (format sha256 hinj) seals (run (format sha256 hinj) seals events)
          event := by
      simp [run]
    refine ⟨table', hrun ▸ hc', hone.step hc heffect (hundisplaced events event [] rfl)⟩

end Signing

section Sample

open ClsagNonces (injective_digest sampleEnv sampleSession)

/-- Messages as their own digests. -/
def sampleFormat : Format RecordKey (List UInt8) NonceRecord := format id injective_digest

def sampleKey : RecordKey := ⟨.replicate 32 1, .replicate 32 2, .initiator⟩

def sampleBegin (pubnonce : PubNonce66) : Event Unit :=
  .call sampleEnv (.begin sampleKey sampleSession pubnonce)

def sampleBind (aggHash : Uint256) : Event Unit :=
  .call sampleEnv (.bindAggNonceAndCheck sampleKey aggHash)

def firstNonce : PubNonce66 := .replicate 66 4

def otherNonce : PubNonce66 := .replicate 66 5

def firstAggregate : Uint256 := .replicate 32 6

def otherAggregate : Uint256 := .replicate 32 7

/-- The first nonce signs, another one takes its place, and the first one comes back. -/
def displacedEvents : List (Event Unit) :=
  [sampleBegin firstNonce, sampleBind firstAggregate, .call sampleEnv (.markFinalized sampleKey),
    sampleBegin otherNonce, .call sampleEnv (.markFinalized sampleKey), sampleBegin firstNonce,
    sampleBind otherAggregate]

/-- The binding of the first nonce is gone when it comes back. -/
theorem signs_twice_displaced :
    Signs sampleFormat plainSealing displacedEvents sampleKey firstNonce firstAggregate ∧
      Signs sampleFormat plainSealing displacedEvents sampleKey firstNonce otherAggregate ∧
      firstAggregate ≠ otherAggregate := by
  refine ⟨?_, ?_, by decide⟩
  · have hrecorded : (recorded sampleFormat plainSealing (run sampleFormat plainSealing
        (displacedEvents.take 1)) sampleKey).map NonceRecord.pubnonce = some firstNonce := by
      decide +kernel
    obtain ⟨record, hrecord, hpubnonce⟩ := map_eq_some_iff.mp hrecorded
    exact ⟨displacedEvents.take 1, displacedEvents.drop 2, sampleEnv, record, rfl,
      by decide +kernel, hrecord, hpubnonce⟩
  · have hrecorded : (recorded sampleFormat plainSealing (run sampleFormat plainSealing
        (displacedEvents.take 6)) sampleKey).map NonceRecord.pubnonce = some firstNonce := by
      decide +kernel
    obtain ⟨record, hrecord, hpubnonce⟩ := map_eq_some_iff.mp hrecorded
    exact ⟨displacedEvents.take 6, [], sampleEnv, record, rfl, by decide +kernel, hrecord,
      hpubnonce⟩

/-- The nonce signs, and is begun again in a new process. -/
def resumedEvents : List (Event Unit) :=
  [sampleBegin firstNonce, sampleBind firstAggregate, .restart, sampleBegin firstNonce]

theorem recorded_resumed : ∃ record, recorded sampleFormat plainSealing
    (run sampleFormat plainSealing (resumedEvents.take 3)) sampleKey = some record ∧
      record.pubnonce = firstNonce := by
  have hrecorded : (recorded sampleFormat plainSealing (run sampleFormat plainSealing
      (resumedEvents.take 3)) sampleKey).map NonceRecord.pubnonce = some firstNonce := by
    decide +kernel
  exact map_eq_some_iff.mp hrecorded

theorem undisplaced_resumed : ∀ pre event post, resumedEvents = pre ++ event :: post →
    Undisplaced sampleFormat plainSealing pre event := by
  rintro pre event post hsplit
  rcases pre with _ | ⟨a, _ | ⟨b, _ | ⟨d, _ | ⟨e, pre⟩⟩⟩⟩
  · obtain rfl := (cons.inj hsplit).1
    rintro aggHash ⟨pre, post, env, record, hnil, -⟩
    simp at hnil
  · obtain ⟨rfl, -⟩ := cons.inj (cons.inj hsplit).2
    trivial
  · obtain ⟨rfl, -⟩ := cons.inj (cons.inj (cons.inj hsplit).2).2
    trivial
  · obtain ⟨rfl, hrest⟩ := cons.inj hsplit
    obtain ⟨rfl, hrest'⟩ := cons.inj hrest
    obtain ⟨rfl, hlast⟩ := cons.inj hrest'
    obtain ⟨rfl, -⟩ := cons.inj hlast
    exact fun _ _ => recorded_resumed
  · have hlength := congrArg List.length hsplit
    simp [resumedEvents] at hlength

theorem signs_once_resumed :
    Signs sampleFormat plainSealing resumedEvents sampleKey firstNonce firstAggregate ∧
      ¬ Signs sampleFormat plainSealing resumedEvents sampleKey firstNonce otherAggregate := by
  have hrecorded : (recorded sampleFormat plainSealing (run sampleFormat plainSealing
      (resumedEvents.take 1)) sampleKey).map NonceRecord.pubnonce = some firstNonce := by
    decide +kernel
  obtain ⟨record, hrecord, hpubnonce⟩ := map_eq_some_iff.mp hrecorded
  have hsigns : Signs sampleFormat plainSealing resumedEvents sampleKey firstNonce
      firstAggregate :=
    ⟨resumedEvents.take 1, resumedEvents.drop 2, sampleEnv, record, rfl, by decide +kernel,
      hrecord, hpubnonce⟩
  refine ⟨hsigns, fun hother => ?_⟩
  have heq := signs_once injective_id plainSealing resumedEvents undisplaced_resumed
    sampleKey firstNonce _ _ hsigns hother
  exact absurd heq (by decide)

end Sample

end Pricoin.Musig2Nonces
