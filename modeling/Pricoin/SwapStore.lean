import Pricoin.SwapSafety

/-!
The store of the swap records. A call that is not accepted changes nothing, in memory or
in the database. As long as no row is too large to be read again when the process
restarts, the records come back as they were and none is lost, made anew or set back.
-/
namespace Pricoin.SwapStore

open ByteStreams Codecs KeyImageFile RecordCodecs DurableRecords AdaptorSwaps SwapHistories
open SwapSafety Runs

variable {ι : Type} {decodeTx : Text → Option Uint256} {seals : Sealing ι} {c : Wallet}
  {table : Table}

section Statement

/-- What a record was created with. -/
structure SameCreation (s s' : AdaptorSwap) : Prop where
  swapId : s'.swapId = s.swapId
  role : s'.role = s.role
  counterpartyPub : s'.counterpartyPub = s.counterpartyPub
  foreignChain : s'.foreignChain = s.foreignChain
  foreignAmountSat : s'.foreignAmountSat = s.foreignAmountSat
  pricJointStealthAddress : s'.pricJointStealthAddress = s.pricJointStealthAddress
  pricAmountSat : s'.pricAmountSat = s.pricAmountSat
  memo : s'.memo = s.memo
  createdTime : s'.createdTime = s.createdTime
  btcAliceRecipientXonlyHex : s'.btcAliceRecipientXonlyHex = s.btcAliceRecipientXonlyHex
  btcBobRecipientXonlyHex : s'.btcBobRecipientXonlyHex = s.btcBobRecipientXonlyHex
  pricAliceRecipientStealth : s'.pricAliceRecipientStealth = s.pricAliceRecipientStealth
  pricBobRecipientStealth : s'.pricBobRecipientStealth = s.pricBobRecipientStealth

/-- When the process restarts every row can be read again. -/
def RowsFit (c : Wallet) : Event ι → Prop
  | .restart => ∀ row ∈ c.rows, row.2.length ≤ maxSize
  | _ => True

end Statement

section Records

variable {t : Transition} {s s' s'' : AdaptorSwap}

theorem SameCreation.refl (s : AdaptorSwap) : SameCreation s s :=
  ⟨rfl, rfl, rfl, rfl, rfl, rfl, rfl, rfl, rfl, rfl, rfl, rfl, rfl⟩

theorem SameCreation.trans (h : SameCreation s s') (h' : SameCreation s' s'') :
    SameCreation s s'' where
  swapId := h'.swapId.trans h.swapId
  role := h'.role.trans h.role
  counterpartyPub := h'.counterpartyPub.trans h.counterpartyPub
  foreignChain := h'.foreignChain.trans h.foreignChain
  foreignAmountSat := h'.foreignAmountSat.trans h.foreignAmountSat
  pricJointStealthAddress := h'.pricJointStealthAddress.trans h.pricJointStealthAddress
  pricAmountSat := h'.pricAmountSat.trans h.pricAmountSat
  memo := h'.memo.trans h.memo
  createdTime := h'.createdTime.trans h.createdTime
  btcAliceRecipientXonlyHex := h'.btcAliceRecipientXonlyHex.trans h.btcAliceRecipientXonlyHex
  btcBobRecipientXonlyHex := h'.btcBobRecipientXonlyHex.trans h.btcBobRecipientXonlyHex
  pricAliceRecipientStealth := h'.pricAliceRecipientStealth.trans h.pricAliceRecipientStealth
  pricBobRecipientStealth := h'.pricBobRecipientStealth.trans h.pricBobRecipientStealth

theorem sameCreation_recomputeAdaptorReady (s : AdaptorSwap) :
    SameCreation s (recomputeAdaptorReady s) := by
  rcases recomputeAdaptorReady_cases s with heq | ⟨-, -, -, -, heq⟩
  · rw [heq]
    exact .refl s
  · rw [heq]
    have hs := SameCreation.refl s
    exact { hs with }

theorem Move.sameCreation (h : Move decodeTx s t s') : SameCreation s s' := by
  have hs := SameCreation.refl s
  cases h with
  | adaptorMaterials _ hsecret =>
    refine SameCreation.trans ?_ (sameCreation_recomputeAdaptorReady _)
    rcases recordSecret_cases hsecret with ⟨-, rfl⟩ | ⟨secret, -, rfl⟩
    · exact { hs with }
    · exact { hs with }
  | refundTimelocks =>
    refine SameCreation.trans ?_ (sameCreation_recomputeAdaptorReady _)
    exact { hs with }
  | pricClaimed _ _ hm => subst hm; split <;> exact { hs with }
  | coopsignSession => split <;> exact { hs with }
  | pricFundingPlanned _ _ _ _ hm => subst hm; split <;> exact { hs with }
  | abort _ hm => subst hm; split <;> exact { hs with }
  | _ => exact { hs with }

theorem sameCreation_of_later (h : Later decodeTx s s') : SameCreation s s' := by
  induction h with
  | refl => exact .refl s
  | tail _ hstep ih =>
    obtain ⟨t, m, nowSec, haccepts, rfl⟩ := hstep
    have hm := ih.trans (Move.sameCreation haccepts.move)
    exact { hm with }

/-- A record that has gone on does not return to the first state. -/
theorem ne_setup_of_later (h : Later decodeTx s s') (hs : s.state ≠ .setup) :
    s'.state ≠ .setup := by
  intro hs'
  have hle := Later.rank_le h
  rw [hs'] at hle
  cases hstate : s.state with
  | setup => exact hs hstate
  | _ => simp [hstate, rank] at hle

end Records

section Calls

/-- A change of the records, which is made only if it is reported. -/
def Changes (decodeTx : Text → Option Uint256) (seals : Sealing ι) (c c' : Wallet)
    (reported : Prop) : Prop :=
  ∃ (ε : Type) (env : Conditions ι) (swapId : Uint256)
    (change : Option AdaptorSwap → Except ε (AdaptorSwap × AdaptorSwap)) (outcome : Outcome ε),
    (∀ existing p, change existing = .ok p → p.1 = p.2) ∧
    amend (format decodeTx) seals env swapId change c = (outcome, c') ∧
    (outcome = .written → reported)

theorem create_cases (env : Env ι) (args : CreateArgs) (c : Wallet) :
    (create decodeTx seals env args c).2 = c ∨
    Changes decodeTx seals c (create decodeTx seals env args c).2
      (Went (.create (create decodeTx seals env args c).1)) := by
  unfold create
  split
  · exact .inl rfl
  split_ifs
  · exact .inl rfl
  · exact .inl rfl
  · rename_i counterpartyPub _ _ _
    simp only
    generalize newSwap env.nowSec (args.swapId env.randomId) counterpartyPub args = new
    generalize hamend : amend (format decodeTx) seals env.toConditions new.swapId _ c = result
    obtain ⟨outcome, c'⟩ := result
    refine .inr ⟨_, _, _, _, _, fun _ _ => createChange_same, hamend, ?_⟩
    rintro rfl
    trivial

theorem call_cases (env : Env ι) (swapId : Uint256) (t : Transition) (c : Wallet) :
    (call decodeTx seals env swapId t c).2 = c ∨
    Changes decodeTx seals c (call decodeTx seals env swapId t c).2
      (Went (.call (call decodeTx seals env swapId t c).1)) := by
  unfold call
  split
  · exact .inl rfl
  · unfold mutateAndPersist
    simp only
    generalize hamend : amend (format decodeTx) seals env.toConditions swapId _ c = result
    obtain ⟨outcome, c'⟩ := result
    refine .inr ⟨_, _, _, _, _, fun _ _ => setterChange_same, hamend, ?_⟩
    rintro rfl
    trivial

theorem lookup_cases {α : Type} (env : Env ι)
    (view : (Uint256 → Option AdaptorSwap) → LookupResult α) (c : Wallet) :
    (lookup decodeTx seals env view c).2 = c ∨
    ∃ result, ensureLoaded (format decodeTx) seals env.toConditions c =
      (result, (lookup decodeTx seals env view c).2) := by
  unfold lookup
  split
  · exact .inl rfl
  · generalize ensureLoaded (format decodeTx) seals env.toConditions c = result
    obtain ⟨loading, c'⟩ := result
    cases loading <;> exact .inr ⟨_, rfl⟩

theorem loadFromDB_cases (env : Env ι) (c : Wallet) :
    (loadFromDB decodeTx seals env c).2 = c ∨
    ∃ result, ensureLoaded (format decodeTx) seals env.toConditions c =
      (result, (loadFromDB decodeTx seals env c).2) := by
  unfold loadFromDB
  split
  · exact .inl rfl
  · generalize ensureLoaded (format decodeTx) seals env.toConditions c = result
    obtain ⟨loading, c'⟩ := result
    cases loading <;> exact .inr ⟨_, rfl⟩

/-- What a call leaves behind: all as it was, what loading leaves, or a change. -/
theorem step_cases (c : Wallet) (event : Event ι) (hevent : event ≠ .restart) :
    step decodeTx seals c event = c ∨
    (∃ env result, ensureLoaded (format decodeTx) seals env c =
      (result, step decodeTx seals c event)) ∨
    Changes decodeTx seals c (step decodeTx seals c event)
      (Went (reply decodeTx seals c event)) := by
  cases event with
  | create env args => exact (create_cases env args c).imp id .inr
  | call env swapId t => exact (call_cases env swapId t c).imp id .inr
  | get env swapId =>
    have hget : step decodeTx seals c (.get env swapId) =
      (get decodeTx seals env swapId c).2 := rfl
    rw [hget]
    exact (lookup_cases env _ c).imp id fun h => .inl ⟨_, h⟩
  | list env =>
    have hlist : step decodeTx seals c (.list env) = (list decodeTx seals env c).2 := rfl
    rw [hlist]
    exact (lookup_cases env _ c).imp id fun h => .inl ⟨_, h⟩
  | loadFromDB env => exact (loadFromDB_cases env c).imp id fun h => .inl ⟨_, h⟩
  | restart => exact absurd rfl hevent

section

variable (h : KeepsTo decodeTx seals c table)
include h

/-- A call that is not accepted changes nothing. -/
theorem unchanged_step {event : Event ι} (hevent : event ≠ .restart)
    (hreply : ¬ Went (reply decodeTx seals c event)) :
    Unchanged (format decodeTx) seals c (step decodeTx seals c event) := by
  rcases step_cases c event hevent with
    heq | ⟨env, result, hload⟩ | ⟨ε, env, swapId, change, outcome, hchange, hamend, hwritten⟩
  · rw [heq]
    exact .refl c
  · exact h.coherent.unchanged_ensureLoaded hload
  · exact h.coherent.unchanged_amend hchange hamend fun hw => hreply (hwritten hw)

/-- The rows can be loaded after the call, if they fit when the process restarts. -/
theorem loadable_step {event : Event ι} (hevent : RowsFit c event) (hc : Loadable c) :
    Loadable (step decodeTx seals c event) := by
  by_cases hrestart : event = .restart
  · subst hrestart
    exact fun _ => hevent
  · rcases step_cases c event hrestart with
      heq | ⟨env, result, hload⟩ | ⟨ε, env, swapId, change, outcome, hchange, hamend, -⟩
    · rw [heq]
      exact hc
    · exact hc.of_eq (h.coherent.eq_of_unloaded_ensureLoaded hload)
    · exact hc.of_eq (h.coherent.eq_of_unloaded_amend hchange hamend)

/-- The records that are listed are those that are found. -/
theorem found_of_list {env : Env ι} {records : Uint256 → Option AdaptorSwap}
    (hlist : (list decodeTx seals env c).1 = some (.ok records)) :
    records = found decodeTx seals c := by
  unfold list lookup at hlist
  split at hlist
  · cases hlist
  · generalize hload : ensureLoaded (format decodeTx) seals env.toConditions c = result
      at hlist
    obtain ⟨loading, c'⟩ := result
    cases loading with
    | threw => cases hlist
    | failed => cases hlist
    | done =>
      have hstore : c'.store = records := LookupResult.ok.inj (Option.some.inj hlist)
      funext swapId
      rw [← hstore]
      exact (h.coherent.recorded_eq hload swapId).symm

/-- An unlocked wallet that can read its rows lists them. -/
theorem list_of_loadable {env : Env ι} (hc : Loadable c) (hlocked : env.locked = false)
    (hreads : env.reads = true) :
    (list decodeTx seals env c).1 = some (.ok (found decodeTx seals c)) := by
  obtain ⟨c', hload⟩ := h.coherent.ensureLoaded_done hc hreads
  have hstore : c'.store = found decodeTx seals c :=
    funext fun swapId => (h.coherent.recorded_eq hload swapId).symm
  unfold list lookup
  rw [hlocked, hload, if_neg nofun]
  simp only [hstore]

end

/-- Nothing is listed while a row is too large to be read. -/
theorem list_ne_of_large (hloaded : c.loaded = false)
    (hrow : ∃ row ∈ c.rows, maxSize < row.2.length) (env : Env ι)
    (records : Uint256 → Option AdaptorSwap) :
    (list decodeTx seals env c).1 ≠ some (.ok records) := by
  have hany : (c.rows.any fun row => decide (maxSize < row.2.length)) = true := by
    simpa using hrow
  have hstop : ensureLoaded (format decodeTx) seals env.toConditions c = (.failed, c) ∨
      ensureLoaded (format decodeTx) seals env.toConditions c = (.threw, c) := by
    unfold ensureLoaded
    rw [if_neg (by simp [hloaded]), if_pos hany]
    split
    · exact .inl rfl
    · exact .inr rfl
  intro hlist
  unfold list lookup at hlist
  split at hlist
  · cases hlist
  · rcases hstop with hstop | hstop
    · rw [hstop] at hlist
      cases hlist
    · rw [hstop] at hlist
      cases hlist

end Calls

section Runs

theorem found_eq_table (h : KeepsTo decodeTx seals c table) (hc : Loadable c) :
    found decodeTx seals c = table :=
  funext (h.coherent.recorded_eq_table h.reached.stable hc)

/-- A run in which the rows fit keeps to a table whose records are all found. -/
theorem loadable_run {events : List (Event ι)} (h : KeepsTo decodeTx seals c table)
    (hc : Loadable c) (hevents : Always (step decodeTx seals) RowsFit c events) :
    ∃ table', KeepsTo decodeTx seals (events.foldl (step decodeTx seals) c) table' ∧
      Loadable (events.foldl (step decodeTx seals) c) ∧ Follows decodeTx table table' := by
  induction events generalizing c table with
  | nil => exact ⟨table, h, hc, .refl table⟩
  | cons event events ih =>
    obtain ⟨table', heffect, h'⟩ := keepsTo_step h event
    obtain ⟨table'', h'', hc'', hfollows⟩ := ih h' (loadable_step h hevents.1 hc) hevents.2
    exact ⟨table'', h'', hc'', heffect.follows.trans hfollows⟩

theorem loadable_empty : Loadable emptyWallet := by
  intro _ row hrow
  cases hrow

/-- A created record is found. -/
theorem table_of_create {table' view : Table} {env : Env ι} {args : CreateArgs} {out : AdaptorSwap}
    {reply : Reply} (hkeyed : ∀ swapId s, table swapId = some s → s.swapId = swapId)
    (heffect : Effect decodeTx view table (.create env args) reply table')
    (hreply : reply = .create (some (.ok out))) : table' out.swapId = some out := by
  subst hreply
  cases heffect with
  | created => exact Function.update_self ..
  | existed hs => rw [hkeyed _ _ hs, hs]
  | kept hreply => exact absurd trivial hreply

/-- A call that is not accepted changes nothing, in any run. If the rows fit when the process
restarts, the records are then listed as they were before, a created record is found, and no
record is lost, made anew or set back. -/
theorem durable_of_rowsFit (decodeTx : Text → Option Uint256) (seals : Sealing ι) :
    (∀ (events : List (Event ι)) event, event ≠ .restart →
      ¬ Went (reply decodeTx seals (run decodeTx seals events) event) →
      Unchanged (format decodeTx) seals (run decodeTx seals events)
        (step decodeTx seals (run decodeTx seals events) event)) ∧
    ∀ events : List (Event ι), Always (step decodeTx seals) RowsFit emptyWallet events →
      (∀ pre post env env' records, events = pre ++ .restart :: post →
        (list decodeTx seals env (run decodeTx seals pre)).1 = some (.ok records) →
        env'.locked = false → env'.reads = true →
        (list decodeTx seals env' (run decodeTx seals (pre ++ [.restart]))).1 =
          some (.ok records)) ∧
      (∀ pre post env args out, events = pre ++ .create env args :: post →
        reply decodeTx seals (run decodeTx seals pre) (.create env args) =
          .create (some (.ok out)) →
        found decodeTx seals (run decodeTx seals (pre ++ [.create env args])) out.swapId =
          some out) ∧
      ∀ pre mid post swapId s, events = pre ++ mid ++ post →
        found decodeTx seals (run decodeTx seals pre) swapId = some s →
        ∃ s', found decodeTx seals (run decodeTx seals (pre ++ mid)) swapId = some s' ∧
          Later decodeTx s s' ∧ SameCreation s s' ∧ (s.state ≠ .setup → s'.state ≠ .setup) := by
  constructor
  · intro events event hevent hreply
    obtain ⟨table, h⟩ := keepsTo_run decodeTx seals events
    exact unchanged_step h hevent hreply
  intro events hevents
  refine ⟨?_, ?_, ?_⟩
  · rintro pre post env env' records rfl hlist hlocked hreads
    obtain ⟨hpre, hrestart, -⟩ := Always.append.mp hevents
    obtain ⟨table, h, hc, -⟩ := loadable_run (keepsTo_empty decodeTx seals) loadable_empty hpre
    have hc' : Loadable (DurableRecords.restart (run decodeTx seals pre)) := fun _ => hrestart
    have h' :
        KeepsTo decodeTx seals (DurableRecords.restart (run decodeTx seals pre)) table :=
      ⟨h.coherent.restart, h.reached⟩
    have hrun : run decodeTx seals (pre ++ [.restart]) =
        DurableRecords.restart (run decodeTx seals pre) := List.foldl_append
    rw [hrun, list_of_loadable h' hc' hlocked hreads, found_eq_table h' hc',
      found_of_list h hlist]
    exact congrArg (fun records => some (LookupResult.ok records)) (found_eq_table h hc).symm
  · rintro pre post env args out rfl hreply
    obtain ⟨hpre, hcreate, -⟩ := Always.append.mp hevents
    obtain ⟨table, h, hc, -⟩ := loadable_run (keepsTo_empty decodeTx seals) loadable_empty hpre
    obtain ⟨table', heffect, h'⟩ := keepsTo_step h (.create env args)
    have hc' := loadable_step h hcreate hc
    have hrun : run decodeTx seals (pre ++ [.create env args]) = step decodeTx seals
        (pre.foldl (step decodeTx seals) emptyWallet) (.create env args) := List.foldl_append
    rw [hrun, found_eq_table h' hc', table_of_create h.coherent.keyed heffect hreply]
  · rintro pre mid post swapId s rfl hs
    obtain ⟨hpre, hmid⟩ := Always.append.mp (Always.append.mp hevents).1
    obtain ⟨table, h, hc, -⟩ := loadable_run (keepsTo_empty decodeTx seals) loadable_empty hpre
    obtain ⟨table', h', hc', hfollows⟩ := loadable_run h hc hmid
    obtain ⟨s', hs', hlater⟩ := hfollows swapId s (h.table_of_found hs)
    have hrun : run decodeTx seals (pre ++ mid) = mid.foldl (step decodeTx seals)
        (pre.foldl (step decodeTx seals) emptyWallet) := List.foldl_append
    refine ⟨s', ?_, hlater, sameCreation_of_later hlater, ne_setup_of_later hlater⟩
    rw [hrun, found_eq_table h' hc', hs']

end Runs

section Sample

theorem length_lt_bytes (text : Text) : text.length < (bytes.write text).length := by
  have happend : bytes.write text = writeCompactSize text.length ++
    text.flatMap Codec.byte.write := rfl
  have hsize : 0 < (writeCompactSize text.length).length := by
    unfold writeCompactSize
    split_ifs <;> simp
  have hflat : text.length ≤ (text.flatMap Codec.byte.write).length :=
    Codec.length_le_flatMap Codec.byte fun _ _ => Nat.one_pos
  rw [happend, List.length_append]
  omega

/-- A record is written with its memo. -/
theorem memo_length_lt (s : AdaptorSwap) : s.memo.length < (swapCodec.write s).length := by
  have hmemo := length_lt_bytes s.memo
  simp only [swapCodec, Codec.via, partsCodec, Codec.pair, AdaptorSwap.parts,
    List.length_append]
  omega

/-- Arguments with a long memo. -/
def longArgs (memo : Text) : CreateArgs := { sampleArgs .bob ltc with memo := memo }

def longSwap (memo : Text) : AdaptorSwap :=
  newSwap 1 sampleId ⟨2 :: List.replicate 32 0, rfl⟩ (longArgs memo)

theorem step_long (memo : Text) :
    reply sampleDecode plainSealing emptyWallet (.create sampleEnv (longArgs memo)) =
      .create (some (.ok (longSwap memo))) ∧
    (step sampleDecode plainSealing emptyWallet (.create sampleEnv (longArgs memo))).rows =
      [(sampleId, swapCodec.write (longSwap memo))] := ⟨rfl, rfl⟩

/-- A record with a memo of the largest size is created, and no record is listed after a
restart. -/
theorem lost_after_restart :
    reply sampleDecode plainSealing emptyWallet
        (.create sampleEnv (longArgs (List.replicate maxSize 0))) =
      .create (some (.ok (longSwap (List.replicate maxSize 0)))) ∧
    ∀ env records, (list sampleDecode plainSealing env (run sampleDecode plainSealing
      [.create sampleEnv (longArgs (List.replicate maxSize 0)), .restart])).1 ≠
        some (.ok records) := by
  obtain ⟨hreply, hrows⟩ := step_long (List.replicate maxSize 0)
  refine ⟨hreply, list_ne_of_large rfl ⟨_, hrows ▸ List.mem_singleton_self _, ?_⟩⟩
  have hmemo := memo_length_lt (longSwap (List.replicate maxSize 0))
  have hlength : (longSwap (List.replicate maxSize 0)).memo.length = maxSize :=
    List.length_replicate
  exact hlength.symm.trans_lt hmemo

theorem durable_of_rowsFit_sample :
    ∃ s s', found sampleDecode plainSealing (run sampleDecode plainSealing
        (samplePath .bob ltc (some sampleSecret))) sampleId = some s ∧
      found sampleDecode plainSealing (run sampleDecode plainSealing
        (samplePath .bob ltc (some sampleSecret) ++ [.restart])) sampleId = some s' ∧
      SameCreation s s' := by
  have hstate : (found sampleDecode plainSealing (run sampleDecode plainSealing
      (samplePath .bob ltc (some sampleSecret))) sampleId).map AdaptorSwap.state =
        some .bothFunded := by
    decide +kernel
  have hfit : ∀ row ∈ (run sampleDecode plainSealing
      (samplePath .bob ltc (some sampleSecret))).rows, row.2.length ≤ maxSize := by
    decide +kernel
  have hevents : Always (step sampleDecode plainSealing) RowsFit emptyWallet
      (samplePath .bob ltc (some sampleSecret) ++ [.restart]) := by
    rw [Always.append]
    exact ⟨⟨trivial, trivial, trivial, trivial, trivial, trivial, trivial⟩, hfit, trivial⟩
  obtain ⟨s, hs, -⟩ := Option.map_eq_some_iff.mp hstate
  obtain ⟨s', hs', -, hsame, -⟩ := ((durable_of_rowsFit sampleDecode plainSealing).2 _
    hevents).2.2 (samplePath .bob ltc (some sampleSecret)) [.restart] [] sampleId s
    (List.append_nil _).symm hs
  exact ⟨s, s', hs, hs', hsame⟩

end Sample

end Pricoin.SwapStore
