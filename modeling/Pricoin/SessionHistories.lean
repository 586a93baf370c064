import Pricoin.SwapSessions

/-!
Histories of a wallet's swap sessions. A session keeps its counterparty, its role and the time
of its creation, and one that was completed or aborted is never active again, over all calls,
write failures and restarts in which no session is opened under an id that is stored. The
responder's call refuses such an id only when the sessions are in memory. A transition that
could not be written leaves another time in memory than in the row, so the copy is compared with
the rows up to that.
-/
namespace Pricoin.SessionHistories

open ByteStreams KeyImageFile DurableRecords SwapSessions Runs

variable {ι : Type} {seals : Sealing ι} {table : Uint256 → Option SwapSession} {c : Sessions}
  {s t : SwapSession} {id : Uint256} {first : Uint256 → Option SwapSession}

section Mirror

/-- The same session, but for its times of change and what a transition fills in. -/
structure Alike (s t : SwapSession) : Prop where
  sessionId : s.sessionId = t.sessionId
  counterparty : s.counterpartyPub = t.counterpartyPub
  role : s.role = t.role
  created : s.createdTime = t.createdTime
  state : s.state = t.state

theorem Alike.refl (s : SwapSession) : Alike s s := ⟨rfl, rfl, rfl, rfl, rfl⟩

/-- The cache with the table itself as the copy, if there is a copy. -/
def mirror (table : Uint256 → Option SwapSession) (c : Sessions) : Sessions :=
  { c with store := if c.loaded then table else c.store }

/-- The rows are those of the table, and the copy has the same sessions. -/
structure Mirrors (seals : Sealing ι) (table : Uint256 → Option SwapSession) (c : Sessions) :
    Prop where
  rows : Coherent format seals table (mirror table c)
  copy : c.loaded = true → ∀ id, Option.Rel Alike (c.store id) (table id)

theorem mirror_of_unloaded (h : c.loaded = false) : mirror table c = c := by
  obtain ⟨rows, store, loaded⟩ := c
  obtain rfl : loaded = false := h
  rfl

theorem mirror_of_loaded (h : c.loaded = true) : mirror table c = ⟨c.rows, table, true⟩ := by
  obtain ⟨rows, store, loaded⟩ := c
  obtain rfl : loaded = true := h
  rfl

theorem rel_alike_self (s : Option SwapSession) : Option.Rel Alike s s := by
  cases s with
  | none => exact .none
  | some s => exact .some (.refl s)

theorem Mirrors.of_coherent (h : Coherent format seals table c) : Mirrors seals table c := by
  cases hloaded : c.loaded with
  | false => exact ⟨by rwa [mirror_of_unloaded hloaded], by simp [hloaded]⟩
  | true =>
    have hstore : c.store = table := by
      funext id
      have hshown : Shown format table id (c.store id) := h.loaded hloaded id
      exact hshown.eq (stable_of_id fun _ => rfl)
    refine ⟨?_, fun _ id => hstore ▸ rel_alike_self _⟩
    rw [mirror_of_loaded hloaded, ← hloaded]
    exact hstore ▸ h

section

variable (h : Mirrors seals table c)
include h

theorem Mirrors.coherent_of_unloaded (hloaded : c.loaded = false) :
    Coherent format seals table c := by
  simpa only [mirror_of_unloaded hloaded] using h.rows

theorem Mirrors.ensureLoaded {env : Conditions ι} {d : Sessions} {result : Loading}
    (hload : ensureLoaded format seals env c = (result, d)) :
    Mirrors seals table d ∧ (result = .done → d.loaded = true) := by
  cases hloaded : c.loaded with
  | true =>
    rw [DurableRecords.ensureLoaded, if_pos hloaded] at hload
    obtain ⟨-, rfl⟩ := Prod.mk.inj hload
    exact ⟨h, fun _ => hloaded⟩
  | false =>
    obtain ⟨hd, hdone, -⟩ := (h.coherent_of_unloaded hloaded).ensureLoaded hload
    exact ⟨.of_coherent hd, hdone⟩

/-- A call that loads first acts on the loaded copy, or fails. -/
theorem Mirrors.loaded_rule {ε : Type} {env : Env ι} {failed : ε} {act : Sessions → ε × Sessions}
    {P : Sessions → Prop} (hact : ∀ d, Mirrors seals table d → d.loaded = true → P (act d).2)
    (hfailed : ∀ d, Mirrors seals table d → P d) : P (loaded seals env failed act c).2 := by
  obtain ⟨result, d, hload⟩ : ∃ result d,
      DurableRecords.ensureLoaded format seals env.toConditions c = (result, d) := ⟨_, _, rfl⟩
  obtain ⟨hd, hdone⟩ := h.ensureLoaded hload
  unfold loaded
  rw [hload]
  cases result with
  | done => exact hact d hd (hdone rfl)
  | failed => exact hfailed d hd
  | threw => exact hfailed d hd

/-- A session that is written and kept takes its place in the table. -/
theorem Mirrors.place (hloaded : c.loaded = true) (s : SwapSession) (seed : ι) :
    Mirrors seals (put format s table)
      { c with
        rows := writeRow s.sessionId (seals.encrypt seed (sessionCodec.write s)) c.rows
        store := DurableRecords.put format s c.store } where
  rows := by
    have hput := h.rows.put s seed hloaded
    rw [mirror_of_loaded hloaded] at hput
    rw [mirror_of_loaded (by exact hloaded)]
    exact hput
  copy _ id := by
    change Option.Rel Alike (DurableRecords.put format s c.store id)
      (DurableRecords.put format s table id)
    by_cases hid : id = format.keyOf s
    · rw [hid, put_self, put_self]
      exact .some (.refl s)
    · rw [put_of_ne hid, put_of_ne hid]
      exact h.copy hloaded id

/-- Another image of a session in memory does not matter. -/
theorem Mirrors.replace (hloaded : c.loaded = true) (ht : table s.sessionId = some t)
    (halike : Alike s t) :
    Mirrors seals table { c with store := DurableRecords.put format s c.store } where
  rows := by
    have hrows := h.rows
    rw [mirror_of_loaded hloaded] at hrows
    rw [mirror_of_loaded (by exact hloaded)]
    exact hrows
  copy _ id := by
    change Option.Rel Alike (DurableRecords.put format s c.store id) (table id)
    by_cases hid : id = format.keyOf s
    · rw [hid, put_self]
      change Option.Rel Alike (some s) (table s.sessionId)
      rw [ht]
      exact .some halike
    · rw [put_of_ne hid]
      exact h.copy hloaded id

/-- The session in memory and the one in the table. -/
theorem Mirrors.exists_alike (hloaded : c.loaded = true) (hs : c.store id = some s) :
    ∃ t, table id = some t ∧ Alike s t ∧ s.sessionId = id := by
  have hrel := h.copy hloaded id
  rw [hs] at hrel
  cases ht : table id with
  | none =>
    rw [ht] at hrel
    cases hrel
  | some t =>
    rw [ht] at hrel
    cases hrel with
    | some halike => exact ⟨t, rfl, halike, halike.sessionId.trans (h.rows.keyed id t ht)⟩

end

theorem writeRecord_cases (env : Conditions ι) (s : SwapSession) (c : Sessions) :
    writeRecord format seals env s c = (false, c) ∨
      ∃ seed, writeRecord format seals env s c = (true, { c with
        rows := writeRow s.sessionId (seals.encrypt seed (sessionCodec.write s)) c.rows }) := by
  unfold writeRecord
  cases env.seed with
  | none => exact .inl rfl
  | some seed =>
    cases env.writes with
    | false => exact .inl rfl
    | true => exact .inr ⟨seed, rfl⟩

end Mirror

section Steps

/-- What is kept of a session for ever. -/
structure Continues (s t : SwapSession) : Prop where
  counterparty : t.counterpartyPub = s.counterpartyPub
  role : t.role = s.role
  created : t.createdTime = s.createdTime
  ended : s.state ≠ .active → t.state ≠ .active

theorem Continues.refl (s : SwapSession) : Continues s s := ⟨rfl, rfl, rfl, fun h => h⟩

theorem Continues.trans {u : SwapSession} (h : Continues s t) (h' : Continues t u) :
    Continues s u :=
  ⟨h'.counterparty.trans h.counterparty, h'.role.trans h.role, h'.created.trans h.created,
    fun hs => h'.ended (h.ended hs)⟩

theorem Alike.continues (h : Alike s t) : Continues s t :=
  ⟨h.counterparty.symm, h.role.symm, h.created.symm, fun hs => h.state ▸ hs⟩

theorem Alike.symm (h : Alike s t) : Alike t s :=
  ⟨h.sessionId.symm, h.counterparty.symm, h.role.symm, h.created.symm, h.state.symm⟩

theorem Alike.trans {u : SwapSession} (h : Alike s t) (h' : Alike t u) : Alike s u :=
  ⟨h.sessionId.trans h'.sessionId, h.counterparty.trans h'.counterparty, h.role.trans h'.role,
    h.created.trans h'.created, h.state.trans h'.state⟩

/-- The cache is that of the table, or a session with the property has taken its place in it. -/
def Becomes (seals : Sealing ι) (table : Uint256 → Option SwapSession) (Q : SwapSession → Prop)
    (c : Sessions) : Prop :=
  Mirrors seals table c ∨ ∃ s, Q s ∧ Mirrors seals (put format s table) c

theorem Becomes.imp {Q R : SwapSession → Prop} (h : Becomes seals table Q c)
    (himp : ∀ s, Q s → R s) : Becomes seals table R c :=
  Or.imp_right (fun ⟨s, hs, hc⟩ => ⟨s, himp s hs, hc⟩) h

/-- A call that only looks at the copy. -/
theorem Mirrors.loaded_reads (h : Mirrors seals table c) {ε : Type} {env : Env ι} {failed : ε}
    {act : Sessions → ε × Sessions} (hact : ∀ d, (act d).2 = d) :
    Mirrors seals table (loaded seals env failed act c).2 :=
  h.loaded_rule (fun d hd _ => by rwa [hact]) fun _ hd => hd

theorem Mirrors.of_keep (h : Mirrors seals table c) (env : Env ι) (sessionId : Uint256)
    (counterparty : Bytes 33) (role : ClsagNonces.Role) (memo : List UInt8)
    (identity : Bytes 32 × Bytes 33) :
    Becomes seals table (fun s => s.sessionId = sessionId)
      (keep seals env sessionId counterparty role memo identity c).2 := by
  refine h.loaded_rule (fun d hd hloaded => ?_) fun d hd => .inl hd
  rcases @writeRecord_cases ι seals env.toConditions ⟨sessionId, identity.1, identity.2,
    counterparty, role, .active, nullId, noBlame, env.now, env.now, memo⟩ d with
    hwrite | ⟨seed, hwrite⟩
  · rw [hwrite]
    exact .inl hd
  · rw [hwrite]
    exact .inr ⟨_, rfl, hd.place hloaded _ seed⟩

/-- The session goes on from one of the table. -/
def Moved (table : Uint256 → Option SwapSession) (s : SwapSession) : Prop :=
  ∃ t, table s.sessionId = some t ∧ Continues t s

/-- A transition changes an active session, or takes the change back in memory. -/
theorem Mirrors.of_transit (h : Mirrors seals table c) (env : Env ι) (sessionId : Uint256)
    (change : SwapSession → Except TransitionResult SwapSession)
    (undo : SwapSession → SwapSession)
    (hchange : ∀ s s', s.state = .active → change s = .ok s' →
      s'.sessionId = s.sessionId ∧ Continues s s' ∧ Alike (undo s') s) :
    Becomes seals table (Moved table) (transit seals env sessionId change undo c).2 := by
  unfold transit
  split
  · exact .inl h
  refine h.loaded_rule (fun d hd hloaded => ?_) fun d hd => .inl hd
  cases hstore : d.store sessionId with
  | none => exact .inl hd
  | some s =>
    obtain ⟨t, ht, halike, rfl⟩ := hd.exists_alike hloaded hstore
    dsimp only
    split
    · exact .inl hd
    rename_i hactive
    cases hs' : change s with
    | error r => exact .inl hd
    | ok s' =>
      obtain ⟨hid, hcontinues, hundo⟩ := hchange s s' (not_not.mp hactive) hs'
      dsimp only
      rcases @writeRecord_cases ι seals env.toConditions s' d with hwrite | ⟨seed, hwrite⟩
      · rw [hwrite]
        exact .inl (hd.replace hloaded (hundo.sessionId ▸ ht) (hundo.trans halike))
      · rw [hwrite]
        exact .inr ⟨s', ⟨t, hid ▸ ht, halike.symm.continues.trans hcontinues⟩,
          hd.place hloaded s' seed⟩

theorem Mirrors.of_complete (h : Mirrors seals table c) (env : Env ι)
    (sessionId spendTxid : Uint256) :
    Becomes seals table (Moved table) (complete seals env sessionId spendTxid c).2 := by
  refine h.of_transit env sessionId _ _ fun s s' hactive hs' => ?_
  obtain rfl := Except.ok.inj hs'
  exact ⟨rfl, ⟨rfl, rfl, rfl, fun hne => absurd hactive hne⟩, rfl, rfl, rfl, rfl, hactive.symm⟩

theorem Mirrors.of_abort (h : Mirrors seals table c) (lib : SessionLibrary) (env : Env ι)
    (sessionId : Uint256) (blame : Option BlameTicket) :
    Becomes seals table (Moved table) (abort lib seals env sessionId blame c).2 := by
  refine h.of_transit env sessionId _ _ fun s s' hactive hs' => ?_
  cases blame with
  | none =>
    obtain rfl := Except.ok.inj hs'
    exact ⟨rfl, ⟨rfl, rfl, rfl, fun hne => absurd hactive hne⟩, rfl, rfl, rfl, rfl, hactive.symm⟩
  | some ticket =>
    dsimp only at hs'
    split at hs'
    · cases hs'
    · obtain rfl := Except.ok.inj hs'
      exact ⟨rfl, ⟨rfl, rfl, rfl, fun hne => absurd hactive hne⟩, rfl, rfl, rfl, rfl, hactive.symm⟩

/-- The call may open a session under the id. -/
def Opens (c : Sessions) : Call → Uint256 → Prop
  | .create draws _ _, id => draws.find? (· ≠ nullId) = some id
  | .attach sessionId _ _, id =>
    id = sessionId ∧ id ≠ nullId ∧ ¬ (c.loaded = true ∧ (c.store id).isSome = true)
  | _, _ => False

/-- A session takes its place only where the call may open it, or goes on from the table. -/
theorem Mirrors.of_perform (h : Mirrors seals table c) (lib : SessionLibrary) (env : Env ι)
    (call : Call) :
    Becomes seals table (fun s => Opens c call s.sessionId ∨ Moved table s)
      (perform lib seals env c call).2 := by
  cases call with
  | create draws counterparty memo =>
    change Becomes seals table _ (create lib seals env draws counterparty memo c).2
    unfold create
    split_ifs
    · exact .inl h
    · exact .inl h
    split
    · rename_i identity sessionId hidentity hdraw
      refine (h.of_keep env sessionId counterparty .initiator memo identity).imp fun s hs => ?_
      exact .inl (hs ▸ hdraw)
    · exact .inl h
  | attach sessionId counterparty memo =>
    change Becomes seals table _ (attach lib seals env sessionId counterparty memo c).2
    unfold attach
    split_ifs with hvalid hnull hlocked hduplicate
    · exact .inl h
    · exact .inl h
    · exact .inl h
    · exact .inl h
    split
    · exact .inl h
    · rename_i identity hidentity
      refine (h.of_keep env sessionId counterparty .responder memo identity).imp fun s hs => ?_
      exact .inl ⟨hs, hs ▸ hnull, hs ▸ hduplicate⟩
  | sign sessionId payload =>
    change Becomes seals table _ (sign lib seals env sessionId payload c).2
    unfold sign
    split_ifs
    · exact .inl h
    · exact .inl (h.loaded_reads fun _ => rfl)
  | verify sessionId payload signature =>
    change Becomes seals table _ (verify lib seals env sessionId payload signature c).2
    exact .inl (h.loaded_reads fun _ => rfl)
  | get sessionId =>
    change Becomes seals table _ (SwapSessions.get seals env sessionId c).2
    unfold SwapSessions.get
    split_ifs
    · exact .inl h
    · refine .inl (h.loaded_reads fun d => ?_)
      split <;> rfl
  | list =>
    change Becomes seals table _ (list seals env c).2
    unfold list
    split_ifs
    · exact .inl h
    · exact .inl (h.loaded_reads fun _ => rfl)
  | complete sessionId spendTxid =>
    exact (h.of_complete env sessionId spendTxid).imp fun _ => .inr
  | abort sessionId blame => exact (h.of_abort lib env sessionId blame).imp fun _ => .inr

end Steps

section Histories

inductive Event (ι : Type) where
  | call (lib : SessionLibrary) (env : Env ι) (call : Call)
  | restart

def step (seals : Sealing ι) (c : Sessions) : Event ι → Sessions
  | .call lib env call => (perform lib seals env c call).2
  | .restart => restart c

/-- A wallet without sessions. -/
def start : Sessions := ⟨[], fun _ => none, false⟩

/-- There is a row under the id in the database. -/
def Stored (c : Sessions) (id : Uint256) : Prop := id ∈ c.rows.map Prod.fst

/-- The id that is drawn for a new session is not stored, and one that is attached is stored only
if the sessions are in memory. -/
def Guarded (c : Sessions) : Event ι → Prop
  | .call _ _ (.create draws _ _) => ∀ id, draws.find? (· ≠ nullId) = some id → ¬ Stored c id
  | .call _ _ (.attach id _ _) => Stored c id → c.loaded = true
  | _ => True

/-- The sessions of one table go on in another. -/
def GoOn (table table' : Uint256 → Option SwapSession) : Prop :=
  ∀ id s, table id = some s → ∃ t, table' id = some t ∧ Continues s t

theorem goOn_refl (table : Uint256 → Option SwapSession) : GoOn table table :=
  fun _ s hs => ⟨s, hs, .refl s⟩

theorem GoOn.put (h : GoOn first table) (hs : table s.sessionId = none ∨ Moved table s) :
    GoOn first (put format s table) := by
  intro id r hr
  obtain ⟨t, ht, hcontinues⟩ := h id r hr
  by_cases hid : id = format.keyOf s
  · subst hid
    refine ⟨s, put_self s table, ?_⟩
    change table s.sessionId = some t at ht
    rcases hs with hnone | ⟨t', ht', hmoved⟩
    · cases hnone.symm.trans ht
    · obtain rfl := Option.some.inj (ht.symm.trans ht')
      exact hcontinues.trans hmoved
  · exact ⟨t, (put_of_ne hid table).trans ht, hcontinues⟩

theorem Mirrors.stored_iff (h : Mirrors seals table c) (id : Uint256) :
    Stored c id ↔ (table id).isSome = true := h.rows.digest_mem_iff id

theorem Mirrors.isSome_store (h : Mirrors seals table c) (hloaded : c.loaded = true)
    (ht : table id = some t) : ∃ s, c.store id = some s := by
  have hrel := h.copy hloaded id
  rw [ht] at hrel
  cases hs : c.store id with
  | none =>
    rw [hs] at hrel
    cases hrel
  | some s => exact ⟨s, rfl⟩

/-- A guarded call opens sessions only under ids that the table does not have. -/
theorem Mirrors.fresh_of_opens (h : Mirrors seals table c) {lib : SessionLibrary} {env : Env ι}
    {call : Call} (hguarded : Guarded c (.call lib env call)) (hopens : Opens c call id) :
    table id = none ∧ id ≠ nullId := by
  cases call with
  | create draws counterparty memo =>
    have hnot : ¬ Stored c id := hguarded id hopens
    rw [h.stored_iff, Option.not_isSome_iff_eq_none] at hnot
    exact ⟨hnot, by simpa using List.find?_some hopens⟩
  | attach sessionId counterparty memo =>
    obtain ⟨rfl, hne, hnew⟩ := hopens
    refine ⟨?_, hne⟩
    cases ht : table id with
    | none => rfl
    | some t =>
      have hloaded : c.loaded = true := hguarded ((h.stored_iff id).mpr (by rw [ht]; rfl))
      obtain ⟨s, hs⟩ := h.isSome_store hloaded ht
      exact absurd ⟨hloaded, by rw [hs]; rfl⟩ hnew
  | _ => exact hopens.elim

/-- The cache is that of a table without a null id, in which the sessions of a first table go
on. -/
def Reached (seals : Sealing ι) (first : Uint256 → Option SwapSession) (c : Sessions) : Prop :=
  ∃ table, Mirrors seals table c ∧ table nullId = none ∧ GoOn first table

theorem Reached.next (h : Reached seals first c) {event : Event ι} (hguarded : Guarded c event) :
    Reached seals first (step seals c event) := by
  obtain ⟨table, h, hnull, hgoes⟩ := h
  cases event with
  | restart => exact ⟨table, .of_coherent h.rows.restart, hnull, hgoes⟩
  | call lib env call =>
    rcases h.of_perform lib env call with hsame | ⟨s, hs, hplaced⟩
    · exact ⟨table, hsame, hnull, hgoes⟩
    · have hfresh : Opens c call s.sessionId → table s.sessionId = none ∧ s.sessionId ≠ nullId :=
        h.fresh_of_opens hguarded
      refine ⟨_, hplaced, ?_, hgoes.put (hs.imp_left fun hopens => (hfresh hopens).1)⟩
      have hne : nullId ≠ format.keyOf s := by
        rintro hid
        rcases hs with hopens | ⟨t, ht, -⟩
        · exact (hfresh hopens).2 hid.symm
        · change nullId = s.sessionId at hid
          rw [← hid, hnull] at ht
          cases ht
      rw [put_of_ne hne, hnull]

theorem reached_start : Reached seals (fun _ => none) start :=
  ⟨fun _ => none, .of_coherent coherent_empty, rfl, goOn_refl _⟩

theorem Reached.run (h : Reached seals first c) {events : List (Event ι)}
    (hguarded : Always (step seals) Guarded c events) :
    Reached seals first (events.foldl (step seals) c) :=
  hguarded.invariant (fun _ _ hevent hreached => hreached.next hevent) h

/-- What is recorded is in the table. -/
theorem Mirrors.exists_of_recorded (h : Mirrors seals table c)
    (hs : recorded format seals c id = some s) : ∃ t, table id = some t ∧ Alike s t := by
  cases hloaded : c.loaded with
  | true =>
    rw [recorded, if_pos hloaded] at hs
    obtain ⟨t, ht, halike, -⟩ := h.exists_alike hloaded hs
    exact ⟨t, ht, halike⟩
  | false =>
    exact ⟨s, (h.coherent_of_unloaded hloaded).table_of_recorded (stable_of_id fun _ => rfl) hs,
      .refl s⟩

/-- What is in the table is recorded, when the rows can be loaded. -/
theorem Mirrors.exists_recorded (h : Mirrors seals table c) (hloadable : Loadable c)
    (ht : table id = some t) : ∃ s, recorded format seals c id = some s := by
  cases hloaded : c.loaded with
  | true =>
    rw [recorded, if_pos hloaded]
    exact h.isSome_store hloaded ht
  | false =>
    have hrecorded := (h.coherent_of_unloaded hloaded).recorded_eq_table
      (stable_of_id fun _ => rfl) hloadable id
    exact ⟨t, hrecorded.trans ht⟩

theorem keep_ne_duplicate (env : Env ι) (sessionId : Uint256) (counterparty : Bytes 33)
    (role : ClsagNonces.Role) (memo : List UInt8) (identity : Bytes 32 × Bytes 33) (c : Sessions) :
    (keep seals env sessionId counterparty role memo identity c).1.1 ≠ .duplicateSessionId := by
  unfold keep loaded
  dsimp only
  split
  · split <;> exact nofun
  · exact nofun

/-- A stored id is refused as a duplicate just when the sessions are in memory, for a call that is
not refused for its arguments. -/
theorem Mirrors.attach_eq_duplicate_iff (h : Mirrors seals table c) (hnull : table nullId = none)
    (hstored : Stored c id) (lib : SessionLibrary) (env : Env ι) (counterparty : Bytes 33)
    (memo : List UInt8) :
    attach lib seals env id counterparty memo c = ((.duplicateSessionId, none), c) ↔
      lib.validCompressed counterparty = true ∧ env.locked = false ∧ c.loaded = true := by
  obtain ⟨t, ht⟩ := Option.isSome_iff_exists.mp ((h.stored_iff id).mp hstored)
  have hne : id ≠ nullId := by
    rintro rfl
    cases hnull.symm.trans ht
  unfold attach
  rw [if_neg hne]
  constructor
  · intro hattach
    split_ifs at hattach with hvalid hlocked hduplicate
    · cases hattach
    · cases hattach
    · exact ⟨by simpa using hvalid, by simpa using hlocked, hduplicate.1⟩
    · cases hidentity : lib.identity with
      | none =>
        rw [hidentity] at hattach
        cases hattach
      | some identity =>
        rw [hidentity] at hattach
        exact absurd (congrArg (fun r => r.1.1) hattach)
          (keep_ne_duplicate env id counterparty .responder memo identity c)
  · rintro ⟨hvalid, hlocked, hloaded⟩
    obtain ⟨s, hs⟩ := h.isSome_store hloaded ht
    simp [hvalid, hlocked, hloaded, hs]

/-- The sessions of a wallet after these events. -/
def after (seals : Sealing ι) (events : List (Event ι)) : Sessions :=
  events.foldl (step seals) start

/-- In every history in which no session is opened under a stored id unless the sessions are in
memory, a session goes on for ever as it was recorded at any time, its row stays, and it can be
found whenever the rows can be loaded. A stored id is refused as a duplicate, and nothing is
written, in every call that an unlocked wallet makes with a good key when the sessions are in
memory. -/
theorem sessions_go_on (seals : Sealing ι) (before later : List (Event ι))
    (hguarded : Always (step seals) Guarded start (before ++ later)) :
    (∀ id s, recorded format seals (after seals before) id = some s →
      Stored (after seals (before ++ later)) id ∧
      (∀ t, recorded format seals (after seals (before ++ later)) id = some t → Continues s t) ∧
      (Loadable (after seals (before ++ later)) →
        ∃ t, recorded format seals (after seals (before ++ later)) id = some t)) ∧
    (∀ id, Stored (after seals (before ++ later)) id →
      ∀ (lib : SessionLibrary) (env : Env ι) (counterparty : Bytes 33) (memo : List UInt8),
        attach lib seals env id counterparty memo (after seals (before ++ later)) =
            ((.duplicateSessionId, none), after seals (before ++ later)) ↔
          lib.validCompressed counterparty = true ∧ env.locked = false ∧
            (after seals (before ++ later)).loaded = true) := by
  obtain ⟨hbefore, hlater⟩ := Always.append.mp hguarded
  obtain ⟨first, hfirst, hnull, -⟩ := reached_start.run hbefore
  have hreached : Reached seals first (after seals before) := ⟨first, hfirst, hnull, goOn_refl _⟩
  obtain ⟨table, htable, hnull', hgoes⟩ := hreached.run hlater
  have hafter : later.foldl (step seals) (after seals before) = after seals (before ++ later) := by
    rw [after, after, List.foldl_append]
  rw [hafter] at htable
  refine ⟨fun id s hs => ?_, fun id hstored lib env counterparty memo =>
    htable.attach_eq_duplicate_iff hnull' hstored lib env counterparty memo⟩
  obtain ⟨t, ht, halike⟩ := hfirst.exists_of_recorded hs
  obtain ⟨u, hu, hcontinues⟩ := hgoes id t ht
  refine ⟨(htable.stored_iff id).mpr (by rw [hu]; rfl), fun v hv => ?_,
    fun hloadable => htable.exists_recorded hloadable hu⟩
  obtain ⟨u', hu', halike'⟩ := htable.exists_of_recorded hv
  obtain rfl := Option.some.inj (hu.symm.trans hu')
  exact (halike.continues.trans hcontinues).trans halike'.symm.continues

end Histories

section Samples

def sampleLibrary : SessionLibrary where
  validCompressed _ := true
  identity := some (.replicate 32 1, .replicate 33 2)
  signPayload _ _ := some []
  verifyPayload _ _ _ := true

def sampleEnv : Env Unit := ⟨⟨false, true, some (), true⟩, 100⟩

def sampleId : Uint256 := .replicate 32 7

def counterpartyKey (b : UInt8) : Bytes 33 := .replicate 33 b

/-- A session with the first counterparty is attached and completed. -/
def completedOnce : List (Event Unit) :=
  [.call sampleLibrary sampleEnv (.attach sampleId (counterpartyKey 3) []),
    .call sampleLibrary sampleEnv (.complete sampleId sampleId)]

/-- The same id is attached with another counterparty. -/
def attachAgain : Event Unit :=
  .call sampleLibrary sampleEnv (.attach sampleId (counterpartyKey 2) [])

/-- After a restart the completed session is replaced by an active one with the other
counterparty. -/
theorem completed_session_replaced :
    (recorded format plainSealing (after plainSealing completedOnce) sampleId).map
        (fun s => (s.counterpartyPub, s.state)) = some (counterpartyKey 3, .complete) ∧
      (recorded format plainSealing
        (after plainSealing (completedOnce ++ [.restart, attachAgain])) sampleId).map
          (fun s => (s.counterpartyPub, s.state)) = some (counterpartyKey 2, .active) := by
  decide +kernel

/-- Without the restart the second call is refused. -/
theorem sessions_go_on_completed :
    Stored (after plainSealing (completedOnce ++ [attachAgain])) sampleId ∧
      (∀ s, recorded format plainSealing (after plainSealing completedOnce) sampleId = some s →
        ∀ t, recorded format plainSealing (after plainSealing (completedOnce ++ [attachAgain]))
          sampleId = some t → Continues s t) := by
  have hguarded : Always (step plainSealing) Guarded start (completedOnce ++ [attachAgain]) := by
    refine ⟨fun h => ?_, trivial, fun _ => ?_, trivial⟩
    · cases h
    · rfl
  have hrecorded : (recorded format plainSealing (after plainSealing completedOnce)
      sampleId).isSome := by decide +kernel
  have hlasting := (sessions_go_on plainSealing completedOnce [attachAgain] hguarded).1 sampleId
  obtain ⟨s, hs⟩ := Option.isSome_iff_exists.mp hrecorded
  exact ⟨(hlasting s hs).1, fun s hs t ht => (hlasting s hs).2.1 t ht⟩

end Samples

end Pricoin.SessionHistories
