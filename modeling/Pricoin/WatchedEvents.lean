import Pricoin.ChainWatcher
import Pricoin.SwapStore

/-!
Events that the watcher waits for. An entry is dropped whatever its setter answers, so an
event is lost that comes too early, or while the wallet cannot take it. When neither
happens, an entry is dropped only after its setter was accepted, or when it never can be.
-/
namespace Pricoin.WatchedEvents

open ByteStreams KeyImageFile DurableRecords AdaptorSwaps SwapHistories SwapSafety SwapStore Option
open ChainWatcher Checks Runs

variable {ι : Type} {height : Int32} {t : Transition}

section Statement

variable (decodeTx : Text → Option Uint256) (seals : Sealing ι) (lib : Library)

/-- The setter of the entry is accepted for no later record. -/
def NeverAgain (e : WatchEntry) (s : AdaptorSwap) : Prop :=
  ∀ s', Later decodeTx s s' → ∀ height t m, e.transition height = some t →
    ¬ Accepts decodeTx t s' m

/-- The setter of the entry was applied, or there is no swap, or it never takes the setter. -/
def Lawful (c c' : Wallet) (e : WatchEntry) : Prop :=
  (∃ s m t height nowSec, found decodeTx seals c e.swapId = some s ∧
      e.transition height = some t ∧ Accepts decodeTx t s m ∧
      found decodeTx seals c' e.swapId = some { m with updatedTime := nowSec }) ∨
    e.swapId ∉ c.rows.map Prod.fst ∨
    ∃ s, found decodeTx seals c e.swapId = some s ∧ NeverAgain decodeTx e s

/-- The first state in which the setter of the entry is accepted. -/
def sourceRank : WatchKind → ℕ
  | .foreignFunding => 2
  | .pricFunding => 3
  | .pricClaim => 4
  | .foreignClaim => 5
  | .pricRefund => 3
  | .foreignRefund => 3

/-- A call can be made. -/
structure Ready (env : Env ι) : Prop where
  unlocked : env.locked = false
  reads : env.reads = true
  seals : env.seed ≠ none
  writes : env.writes = true

/-- An event that has come is not early and can be recorded. -/
def Timely (turn : Turn ι) (e : WatchEntry) (c : Wallet) : Prop :=
  ∀ status, turn.status = some status → status.found = true →
    e.minConfirmations ≤ status.confirmations →
    Ready turn.setEnv ∧ (e.kind.isFunding = true → 0 < status.blockHeight) ∧
    ∀ s, found decodeTx seals c e.swapId = some s → sourceRank e.kind ≤ rank s.state

/-- When an entry is handled, it is the one that is pending, swaps can be read, and its event is
timely. -/
def Heard (w : Watcher) : ChainWatcher.Event ι → Prop
  | .next turn =>
    match w.phase with
    | .entries (e :: _) =>
      (∀ p ∈ w.pending, lib.digest p.swapId p.kind = lib.digest e.swapId e.kind → p = e) ∧
      Loadable w.swaps ∧
      (e.kind.isForeign = true → turn.swapEnv.locked = false ∧ turn.swapEnv.reads = true) ∧
      Timely decodeTx seals turn e w.swaps
    | _ => True
  | _ => True

end Statement

section Records

variable {decodeTx : Text → Option Uint256} {e : WatchEntry} {s : AdaptorSwap}

/-- The last state in which the setter of the entry is accepted. -/
def lastRank : WatchKind → ℕ
  | .foreignFunding => 2
  | .pricFunding => 3
  | .pricClaim => 4
  | .foreignClaim => 5
  | .pricRefund => 5
  | .foreignRefund => 5

theorem rank_le_of_accepts {m : AdaptorSwap} (ht : e.transition height = some t)
    (h : Accepts decodeTx t s m) : rank s.state ≤ lastRank e.kind := by
  have hmove := h.move
  unfold WatchEntry.transition at ht
  split at ht
  · obtain rfl := some.inj ht
    cases hmove with
    | btcFunded _ _ _ hstate => rcases hstate with hs | hs <;> simp [rank, lastRank, *]
  · obtain ⟨txid, -, rfl⟩ := map_eq_some_iff.mp ht
    cases hmove with
    | pricFunded _ _ _ hstate => simp [rank, lastRank, *]
  · obtain ⟨txid, -, rfl⟩ := map_eq_some_iff.mp ht
    cases hmove with
    | pricClaimed _ hstate => simp [rank, lastRank, *]
  · obtain rfl := some.inj ht
    cases hmove with
    | complete _ hstate => simp [rank, lastRank, *]
  · obtain ⟨txid, -, rfl⟩ := map_eq_some_iff.mp ht
    cases hmove with
    | refunded hstate => rcases hstate with hs | hs | hs <;> simp [rank, lastRank, *]
  · obtain rfl := some.inj ht
    cases hmove with
    | refunded hstate => rcases hstate with hs | hs | hs <;> simp [rank, lastRank, *]

theorem setRefunded_ok {pric : Uint256} {foreign : Text} (hfirst : 3 ≤ rank s.state)
    (hlast : rank s.state ≤ 5) : ∃ m, (setRefunded pric foreign).mutate s = .ok m := by
  cases hstate : s.state <;> simp only [hstate, rank] at hfirst hlast
  all_goals try omega
  all_goals
    simp only [setRefunded, hstate]
    exact ⟨_, rfl⟩

/-- A record between the two states takes the setter, if its input is well-formed. -/
theorem accepts_of_source (hs : Sound s) (hfirst : sourceRank e.kind ≤ rank s.state)
    (hlast : rank s.state ≤ lastRank e.kind) (ht : e.transition height = some t)
    (hcheck : (t.setter decodeTx).check = .ok ()) : ∃ m, Accepts decodeTx t s m := by
  suffices hmutate : ∃ m, (t.setter decodeTx).mutate s = .ok m by
    obtain ⟨m, hm⟩ := hmutate
    exact ⟨m, hcheck, hm⟩
  unfold WatchEntry.transition at ht
  split at ht
  all_goals
    rename_i hkind
    rw [hkind] at hfirst hlast
  · obtain rfl := some.inj ht
    have hstate : s.state = .preSigned := by
      cases hstate : s.state <;> simp [hstate, rank, sourceRank, lastRank] at hfirst hlast ⊢
    have harmed := hs.armed (by simp [hstate])
    simp only [Transition.setter, setBtcFunded, hstate, harmed]
    exact ⟨_, rfl⟩
  · obtain ⟨txid, -, rfl⟩ := map_eq_some_iff.mp ht
    have hstate : s.state = .btcFunded := by
      cases hstate : s.state <;> simp [hstate, rank, sourceRank, lastRank] at hfirst hlast ⊢
    simp only [Transition.setter, setPricFunded, hstate]
    exact ⟨_, rfl⟩
  · obtain ⟨txid, -, rfl⟩ := map_eq_some_iff.mp ht
    have hstate : s.state = .bothFunded := by
      cases hstate : s.state <;> simp [hstate, rank, sourceRank, lastRank] at hfirst hlast ⊢
    simp only [Transition.setter, setPricClaimed, hstate]
    exact ⟨_, rfl⟩
  · obtain rfl := some.inj ht
    have hstate : s.state = .pricClaimed := by
      cases hstate : s.state <;> simp [hstate, rank, sourceRank, lastRank] at hfirst hlast ⊢
    simp only [Transition.setter, setComplete, hstate]
    exact ⟨_, rfl⟩
  · obtain ⟨txid, -, rfl⟩ := map_eq_some_iff.mp ht
    exact setRefunded_ok hfirst hlast
  · obtain rfl := some.inj ht
    exact setRefunded_ok hfirst hlast

/-- A setter that only earlier records take is not accepted any more. -/
theorem neverAgain_of_rank {n : ℕ} (hs : n < rank s.state)
    (hsource : ∀ s' t height m, e.transition height = some t → Accepts decodeTx t s' m →
      rank s'.state ≤ n) : NeverAgain decodeTx e s := by
  intro s' hlater height t m ht haccepts
  have hle := Later.rank_le hlater
  have hearly := hsource s' t height m ht haccepts
  omega

/-- A setter whose input is refused is never accepted. -/
theorem neverAgain_of_check
    (hcheck : ∀ t height, e.transition height = some t →
      (t.setter decodeTx).check ≠ .ok ()) : NeverAgain decodeTx e s :=
  fun _ _ height t _ ht haccepts => hcheck t height ht haccepts.1

/-- The input of an entry is refused at every height but those below one, or at none. -/
theorem check_of_check {height' : Int32} {t' : Transition}
    (hheight : e.kind.isFunding = true → 0 < height) (ht : e.transition height = some t)
    (ht' : e.transition height' = some t') (hcheck' : (t'.setter decodeTx).check = .ok ()) :
    (t.setter decodeTx).check = .ok () := by
  unfold WatchEntry.transition at ht ht'
  split at ht
  all_goals
    rename_i hkind
    simp only [hkind] at ht' hheight
  · obtain rfl := some.inj ht
    obtain rfl := some.inj ht'
    simp only [Transition.setter, setBtcFunded, rejectIf_ok, not_or, Int32.not_le] at hcheck' ⊢
    exact ⟨hcheck'.1, hcheck'.2.1, hheight rfl⟩
  · obtain ⟨txid, htxid, rfl⟩ := map_eq_some_iff.mp ht
    obtain ⟨txid', htxid', rfl⟩ := map_eq_some_iff.mp ht'
    obtain rfl := some.inj (htxid.symm.trans htxid')
    simp only [Transition.setter, setPricFunded, rejectIf_ok, not_or, Int32.not_le] at hcheck' ⊢
    exact ⟨hcheck'.1, hcheck'.2.1, hheight rfl⟩
  · obtain rfl := some.inj (ht.symm.trans ht')
    exact hcheck'
  · obtain rfl := some.inj (ht.symm.trans ht')
    exact hcheck'
  · obtain rfl := some.inj (ht.symm.trans ht')
    exact hcheck'
  · obtain rfl := some.inj (ht.symm.trans ht')
    exact hcheck'

/-- An event that is not early is taken, or never. -/
theorem accepts_or_never (hs : Sound s) (hfirst : sourceRank e.kind ≤ rank s.state)
    (hheight : e.kind.isFunding = true → 0 < height) :
    (∃ t m, e.transition height = some t ∧ Accepts decodeTx t s m) ∨
      NeverAgain decodeTx e s := by
  by_cases hlast : rank s.state ≤ lastRank e.kind
  · cases ht : e.transition height with
    | none =>
      refine .inr (neverAgain_of_check fun t height' ht' => ?_)
      have hnone : e.transition height' = none := by
        unfold WatchEntry.transition at ht ⊢
        split at ht <;> simp_all
      rw [hnone] at ht'
      cases ht'
    | some t =>
      by_cases hcheck : (t.setter decodeTx).check = .ok ()
      · obtain ⟨m, hm⟩ := accepts_of_source hs hfirst hlast ht hcheck
        exact .inl ⟨t, m, rfl, hm⟩
      · refine .inr (neverAgain_of_check fun t' height' ht' hcheck' => hcheck ?_)
        exact check_of_check hheight ht ht' hcheck'
  · exact .inr (neverAgain_of_rank (not_le.mp hlast) fun _ _ _ _ ht h => rank_le_of_accepts ht h)

end Records

section Calls

variable {decodeTx : Text → Option Uint256} {seals : Sealing ι}
variable {c c' : Wallet} {table : Table} {swapId : Uint256}

variable (h : KeepsTo decodeTx seals c table) (hc : Loadable c)
include h hc

/-- A record that is not found is not in the database. -/
theorem not_mem_rows (hnone : found decodeTx seals c swapId = none) :
    swapId ∉ c.rows.map Prod.fst := by
  intro hmem
  have hsome := (h.coherent.digest_mem_iff swapId).mp hmem
  rw [← found_eq_table h hc, hnone] at hsome
  cases hsome

/-- Looking a swap up leaves all swaps. -/
theorem found_get {env : Env ι} {result : Option (LookupResult AdaptorSwap)}
    (hget : get decodeTx seals env swapId c = (result, c')) :
    (∃ table', KeepsTo decodeTx seals c' table') ∧ Loadable c' ∧
      Unchanged (format decodeTx) seals c c' := by
  have hstep : AdaptorSwaps.step decodeTx seals c (.get env swapId) = c' :=
    congrArg Prod.snd hget
  obtain ⟨table', -, h'⟩ := keepsTo_step h (.get env swapId)
  have hc' : Loadable (AdaptorSwaps.step decodeTx seals c (.get env swapId)) :=
    loadable_step h trivial hc
  have hsame : Unchanged (format decodeTx) seals c
      (AdaptorSwaps.step decodeTx seals c (.get env swapId)) := unchanged_step h nofun id
  rw [hstep] at h' hc' hsame
  exact ⟨⟨table', h'⟩, hc', hsame⟩

/-- An unlocked wallet that can be read shows what is there. -/
theorem get_of_loadable {env : Env ι} {result : Option (LookupResult AdaptorSwap)}
    (hlocked : env.locked = false) (hreads : env.reads = true)
    (hget : get decodeTx seals env swapId c = (result, c')) :
    (found decodeTx seals c swapId = none ∧ result = some .notFound) ∨
      ∃ s, found decodeTx seals c swapId = some s ∧ result = some (.ok s) := by
  obtain ⟨d, hload⟩ := h.coherent.ensureLoaded_done hc hreads
  have hstore : found decodeTx seals c swapId = d.store swapId :=
    h.coherent.recorded_eq hload swapId
  unfold AdaptorSwaps.get lookup at hget
  rw [if_neg (by simp [hlocked]), hload] at hget
  obtain ⟨rfl, -⟩ := Prod.mk.inj hget
  rw [hstore]
  beta_reduce
  cases d.store swapId with
  | none => exact .inl ⟨rfl, rfl⟩
  | some s => exact .inr ⟨s, rfl, rfl⟩

/-- A setter that is accepted is applied, if the call can be made. -/
theorem found_call {env : Env ι} {t : Transition} {s m : AdaptorSwap}
    {result : Option TransitionResult} (henv : Ready env)
    (hs : found decodeTx seals c swapId = some s) (haccepts : Accepts decodeTx t s m)
    (hcall : call decodeTx seals env swapId t c = (result, c')) :
    found decodeTx seals c' swapId = some { m with updatedTime := env.nowSec } := by
  obtain ⟨hcheck, hmutate⟩ := haccepts
  have hchange : setterChange env.nowSec (t.setter decodeTx)
      (found decodeTx seals c swapId) =
      .ok ({ m with updatedTime := env.nowSec }, { m with updatedTime := env.nowSec }) := by
    rw [hs]
    simp only [setterChange, hmutate]
  have hwritten := h.coherent.amend_written hc henv.unlocked henv.reads henv.seals henv.writes
    hchange
  have hok : result = some .ok := by
    unfold call mutateAndPersist at hcall
    rw [hcheck] at hcall
    simp only [hwritten] at hcall
    exact (Prod.mk.inj hcall).1.symm
  have hstep : AdaptorSwaps.step decodeTx seals c (.call env swapId t) = c' :=
    congrArg Prod.snd hcall
  have hreply : AdaptorSwaps.reply decodeTx seals c (.call env swapId t) =
      .call (some .ok) := by
    rw [← hok]
    exact congrArg (fun result => Reply.call result.1) hcall
  obtain ⟨table', heffect, h'⟩ := keepsTo_step h (.call env swapId t)
  have hc' : Loadable (AdaptorSwaps.step decodeTx seals c (.call env swapId t)) :=
    loadable_step h trivial hc
  rw [hstep] at h' hc'
  rw [hreply] at heffect
  rw [found_eq_table h' hc']
  cases heffect with
  | kept hnot => exact absurd trivial hnot
  | @moved _ _ _ s' m' hview _ haccepts' =>
    obtain rfl := some.inj (hview.symm.trans hs)
    obtain rfl := Except.ok.inj (haccepts'.2.symm.trans hmutate)
    exact Function.update_self ..

end Calls

section Steps

variable {decodeTx : Text → Option Uint256} {seals : Sealing ι} {lib : Library}

/-- Handling an entry changes no entry. -/
theorem pending_handleEntry {turn : Turn ι} {e : WatchEntry} {w w' : Watcher} {handled : Handled}
    (h : handleEntry decodeTx seals turn e w = (handled, w')) : w'.pending = w.pending := by
  have hpending : (handleEntry decodeTx seals turn e w).2.pending = w.pending := by
    refine handleEntry_rel (R := fun w w' => w'.pending = w.pending) ?_ ?_ ?_ e w
    · exact fun h h' => h'.trans h
    · exact fun _ _ _ => rfl
    · exact fun _ _ => rfl
  rwa [h] at hpending

/-- What is consumed after a look at the chain is dropped with right. -/
theorem lawful_applyTransition {turn : Turn ι} {e : WatchEntry} {status : TxStatus}
    {w w' : Watcher} {table : Table} {result : Option TransitionResult}
    (h : KeepsTo decodeTx seals w.swaps table) (hc : Loadable w.swaps)
    (hstatus : turn.status = some status) (htimely : Timely decodeTx seals turn e w.swaps)
    (happly : applyTransition decodeTx seals turn e status w = (.consumed result, w')) :
    Lawful decodeTx seals w.swaps w'.swaps e := by
  unfold applyTransition at happly
  split at happly
  · cases happly
  rename_i hreached
  simp only [not_or, Bool.not_eq_true, Bool.not_eq_false', Int32.not_lt] at hreached
  obtain ⟨henv, hheight, hsource⟩ := htimely status hstatus (by simpa using hreached.1) hreached.2
  cases hs : found decodeTx seals w.swaps e.swapId with
  | none => exact .inr (.inl (not_mem_rows h hc hs))
  | some s =>
    have hsound := inductive_sound.reached (h.reached _ s (h.table_of_found hs))
    have htaken : _ ∨ NeverAgain decodeTx e s :=
      accepts_or_never hsound (hsource s hs) hheight
    rcases htaken with ⟨t, m, ht, haccepts⟩ | hnever
    · rw [ht] at happly
      simp only at happly
      split at happly
      · cases happly
      · rename_i hcall
        obtain ⟨-, rfl⟩ := Prod.mk.inj happly
        exact .inl ⟨s, m, t, _, _, hs, ht, haccepts, found_call h hc henv hs haccepts hcall⟩
    · exact .inr (.inr ⟨s, hs, hnever⟩)

theorem Lawful.of_unchanged {c c₁ c' : Wallet} {e : WatchEntry}
    (hsame : Unchanged (format decodeTx) seals c c₁)
    (h : Lawful decodeTx seals c₁ c' e) : Lawful decodeTx seals c c' e := by
  have hfound : found decodeTx seals c₁ = found decodeTx seals c := funext hsame.records
  unfold Lawful at h ⊢
  rwa [hfound, hsame.rows] at h

/-- What is consumed is dropped with right. -/
theorem lawful_handleEntry {turn : Turn ι} {e : WatchEntry} {w w' : Watcher} {table : Table}
    {result : Option TransitionResult} (h : KeepsTo decodeTx seals w.swaps table)
    (hc : Loadable w.swaps)
    (hforeign : e.kind.isForeign = true →
      turn.swapEnv.locked = false ∧ turn.swapEnv.reads = true)
    (htimely : Timely decodeTx seals turn e w.swaps)
    (hhandle : handleEntry decodeTx seals turn e w = (.consumed result, w')) :
    Lawful decodeTx seals w.swaps w'.swaps e := by
  unfold handleEntry at hhandle
  split at hhandle
  · rename_i hkind
    obtain ⟨hlocked, hreads⟩ := hforeign hkind
    generalize hget : AdaptorSwaps.get decodeTx seals turn.swapEnv e.swapId w.swaps = answer
      at hhandle
    obtain ⟨answer, c⟩ := answer
    obtain ⟨⟨table', h'⟩, hc', hsame⟩ := found_get h hc hget
    rcases get_of_loadable h hc hlocked hreads hget with ⟨hnone, rfl⟩ | ⟨s, hs, rfl⟩
    · exact .inr (.inl (not_mem_rows h hc hnone))
    · simp only at hhandle
      split_ifs at hhandle
      · cases hhandle
      · cases hhandle
      · split at hhandle
        · cases hhandle
        · rename_i status hstatus
          have hfound : found decodeTx seals c = found decodeTx seals w.swaps :=
            funext hsame.records
          have htimely' : Timely decodeTx seals turn e c := by
            unfold Timely
            rwa [hfound]
          have hlawful : Lawful decodeTx seals c w'.swaps e :=
            lawful_applyTransition h' hc' hstatus htimely' hhandle
          exact hlawful.of_unchanged hsame
  · split at hhandle
    · cases hhandle
    · rename_i status hstatus
      exact lawful_applyTransition h hc hstatus htimely hhandle

/-- An entry is under its digest. -/
theorem getEntry_isSome {digest : Digest} {pending : List WatchEntry} {e : WatchEntry}
    (he : e ∈ pending) : (getEntry digest e.swapId e.kind pending).isSome = true := by
  unfold getEntry
  rw [List.find?_isSome]
  exact ⟨e, he, by simp⟩

theorem mem_eraseEntry {digest : Digest} {pending : List WatchEntry} {e p : WatchEntry}
    (hp : p ∈ pending) (hne : digest p.swapId p.kind ≠ digest e.swapId e.kind) :
    p ∈ eraseEntry digest e.swapId e.kind pending :=
  List.mem_filter.mpr ⟨hp, by simpa using hne⟩

theorem remove_cases (digest : Digest) (env : StoreConditions) (swapId : Uint256)
    (kind : WatchKind) (pending : List WatchEntry) :
    (remove digest env swapId kind pending).2 = pending ∨
      (remove digest env swapId kind pending).2 = eraseEntry digest swapId kind pending := by
  unfold remove
  split_ifs
  · exact .inl rfl
  · exact .inl rfl
  · exact .inl rfl
  · exact .inl rfl
  · exact .inr rfl

/-- An entry that a new one does not take the place of stays under its digest. -/
theorem mem_putEntry {digest : Digest} {pending : List WatchEntry} {e p : WatchEntry}
    (hp : p ∈ pending) :
    p ∈ putEntry digest e pending ∨
      (digest e.swapId e.kind = digest p.swapId p.kind ∧ e ∈ putEntry digest e pending) := by
  induction pending with
  | nil => cases hp
  | cons q pending ih =>
    unfold putEntry
    split_ifs with hsame hless
    · rcases List.mem_cons.mp hp with rfl | hp
      · exact .inr ⟨hsame.symm, List.mem_cons_self⟩
      · exact .inl (List.mem_cons_of_mem _ hp)
    · exact .inl (List.mem_cons_of_mem _ hp)
    · rcases List.mem_cons.mp hp with rfl | hp
      · exact .inl List.mem_cons_self
      · rcases ih hp with h | ⟨hdigest, he⟩
        · exact .inl (List.mem_cons_of_mem _ h)
        · exact .inr ⟨hdigest, List.mem_cons_of_mem _ he⟩

/-- For every entry of the first list there is one under its digest in the second. -/
def Covers (digest : Digest) (pending pending' : List WatchEntry) : Prop :=
  ∀ p ∈ pending, (getEntry digest p.swapId p.kind pending').isSome = true

theorem Covers.refl {digest : Digest} (pending : List WatchEntry) :
    Covers digest pending pending := fun _ hp => getEntry_isSome hp

theorem covers_putEntry {digest : Digest} (e : WatchEntry) (pending : List WatchEntry) :
    Covers digest pending (putEntry digest e pending) := by
  intro p hp
  rcases mem_putEntry hp with h | ⟨hdigest, he⟩
  · exact getEntry_isSome h
  · unfold getEntry
    rw [List.find?_isSome]
    exact ⟨e, he, by simpa using hdigest⟩

theorem covers_add (digest : Digest) (env : StoreConditions) (unixTime : Int64)
    (e : WatchEntry) (pending : List WatchEntry) :
    Covers digest pending (add digest env unixTime e pending).2 := by
  unfold add
  split_ifs
  · exact .refl pending
  · exact .refl pending
  · exact .refl pending
  · exact .refl pending
  · exact covers_putEntry _ pending
  · exact covers_putEntry _ pending

theorem Covers.trans {digest : Digest} {pending pending' pending'' : List WatchEntry}
    (h : Covers digest pending pending') (h' : Covers digest pending' pending'') :
    Covers digest pending pending'' := by
  intro p hp
  obtain ⟨q, hq⟩ := isSome_iff_exists.mp (h p hp)
  have hdigest : digest q.swapId q.kind = digest p.swapId p.kind := by
    simpa using List.find?_some hq
  have hsome := h' q (List.mem_of_find?_eq_some hq)
  unfold getEntry at hsome ⊢
  rwa [hdigest] at hsome

/-- Only the handling of entries drops any. -/
theorem covers_next (decodeTx : Text → Option Uint256) (seals : Sealing ι) (lib : Library)
    (cfg : Config) (turn : Turn ι) (w : Watcher)
    (hphase : ∀ e queue, w.phase ≠ .entries (e :: queue)) :
    Covers lib.digest w.pending (next decodeTx seals lib cfg turn w).pending := by
  have hmoves : Moves decodeTx seals lib turn w.phase
      fun w w' => Covers lib.digest w.pending w'.pending :=
    { trans := Covers.trans
      look := fun w _ _ => .refl w.pending
      goto := fun w _ => .refl w.pending
      clear := fun _ w => .refl w.pending
      fail := fun _ w _ => .refl w.pending
      log := fun _ w _ => .refl w.pending
      attempt := fun _ w => .refl w.pending
      detect := fun _ _ _ w => covers_add _ _ _ _ _
      watch := fun _ _ _ w => covers_add _ _ _ _ _
      add := fun w _ _ => covers_add _ _ _ _ _ }
  exact hmoves.next hphase

/-- An entry that is gone after it was handled is dropped with right. -/
theorem lawful_handleNext {turn : Turn ι} {e p : WatchEntry} {queue : List WatchEntry}
    {w : Watcher} {table : Table} (h : KeepsTo decodeTx seals w.swaps table)
    (hsame : ∀ p ∈ w.pending,
      lib.digest p.swapId p.kind = lib.digest e.swapId e.kind → p = e)
    (hc : Loadable w.swaps)
    (hforeign : e.kind.isForeign = true →
      turn.swapEnv.locked = false ∧ turn.swapEnv.reads = true)
    (htimely : Timely decodeTx seals turn e w.swaps)
    (hp : p ∈ w.pending)
    (hgone : getEntry lib.digest p.swapId p.kind
      (handleNext decodeTx seals lib turn e queue w).pending = none) :
    Lawful decodeTx seals w.swaps
      (handleNext decodeTx seals lib turn e queue w).swaps p := by
  have hkept : ∀ pending, p ∈ pending → getEntry lib.digest p.swapId p.kind pending ≠ none := by
    intro pending hp hnone
    have hsome : (getEntry lib.digest p.swapId p.kind pending).isSome = true :=
      getEntry_isSome hp
    rw [hnone] at hsome
    cases hsome
  obtain ⟨handled, w', hhandle⟩ : ∃ handled w',
    handleEntry decodeTx seals turn e w = (handled, w') := ⟨_, _, rfl⟩
  have hp' : p ∈ w'.pending := pending_handleEntry hhandle ▸ hp
  unfold handleNext at hgone ⊢
  rw [hhandle] at hgone ⊢
  cases handled with
  | threw => exact absurd hgone (hkept _ hp')
  | waits => exact absurd hgone (hkept _ hp')
  | consumed result =>
    rcases remove_cases lib.digest turn.storeEnv e.swapId e.kind w'.pending with hrm | hrm
    · simp only [hrm] at hgone
      exact absurd hgone (hkept _ hp')
    · simp only [hrm] at hgone
      have hdigest : lib.digest p.swapId p.kind = lib.digest e.swapId e.kind := by
        by_contra hne
        exact hkept _ (mem_eraseEntry hp' hne) hgone
      obtain rfl := hsame p hp hdigest
      have hlawful : Lawful decodeTx seals w.swaps w'.swaps p :=
        lawful_handleEntry h hc hforeign htimely hhandle
      exact hlawful

end Steps

section Runs

/-- In a run in which every event is heard, an entry is dropped only when its setter was applied,
or there is no swap, or the swap never takes the setter. -/
theorem lawful_of_heard (decodeTx : Text → Option Uint256) (seals : Sealing ι) (lib : Library)
    (cfg : Config) (events : List (ChainWatcher.Event ι))
    (hevents : Always (ChainWatcher.step decodeTx seals lib cfg)
      (Heard decodeTx seals lib) newWatcher events) :
    ∀ pre turn post e, events = pre ++ .next turn :: post →
      e ∈ (ChainWatcher.run decodeTx seals lib cfg pre).pending →
      getEntry lib.digest e.swapId e.kind
        (ChainWatcher.run decodeTx seals lib cfg (pre ++ [.next turn])).pending = none →
      Lawful decodeTx seals (ChainWatcher.run decodeTx seals lib cfg pre).swaps
        (ChainWatcher.run decodeTx seals lib cfg (pre ++ [.next turn])).swaps e := by
  rintro pre turn post e rfl he hgone
  obtain ⟨calls, hcalls⟩ := swaps_run decodeTx seals lib cfg pre
  obtain ⟨table, h⟩ := keepsTo_run decodeTx seals calls
  rw [← hcalls] at h
  have hheard : Heard decodeTx seals lib (ChainWatcher.run decodeTx seals lib cfg pre)
      (.next turn) := (Always.append.mp hevents).2.1
  have hrun : ChainWatcher.run decodeTx seals lib cfg (pre ++ [.next turn]) =
      next decodeTx seals lib cfg turn (ChainWatcher.run decodeTx seals lib cfg pre) :=
    List.foldl_append
  generalize ChainWatcher.run decodeTx seals lib cfg pre = w at *
  rw [hrun] at hgone ⊢
  by_cases hphase : ∃ first queue, w.phase = .entries (first :: queue)
  · obtain ⟨first, queue, hphase⟩ := hphase
    simp only [Heard, hphase] at hheard
    obtain ⟨hsame, hc, hforeign, htimely⟩ := hheard
    simp only [next, hphase] at hgone ⊢
    exact lawful_handleNext h hsame hc hforeign htimely he hgone
  · have hcovers := covers_next decodeTx seals lib cfg turn w
      (fun first queue hq => hphase ⟨first, queue, hq⟩) e he
    rw [hgone] at hcovers
    cases hcovers

end Runs

section Sample

/-- A library without keys and transactions, with the kinds as digests. -/
def sampleLibrary : Library where
  digest _ kind := match kind with
    | .foreignFunding => 1
    | .pricFunding => 2
    | .pricClaim => 3
    | .foreignClaim => 4
    | .pricRefund => 5
    | .foreignRefund => 6
  swapPub := none
  witnessScript _ := none
  signRefund _ _ _ _ := none
  finalBtcRefund _ _ := none
  finalPricRefund _ _ := none

def sampleConfig : Config := ⟨false, []⟩

def openStore : StoreConditions := ⟨false, true, true⟩

/-- A step at which nothing is heard of. -/
def quietTurn : Turn Unit :=
  ⟨sampleEnv, sampleEnv, openStore, openStore, 0, 1, false, true, none, none, none, 0, none, []⟩

/-- A step at which the transaction has a confirmation. -/
def confirmedTurn : Turn Unit := { quietTurn with status := some ⟨true, 1, 5⟩ }

def sampleEntry (kind : WatchKind) : WatchEntry :=
  ⟨sampleId, kind, List.replicate 64 51, 0, 1, 1⟩

def sampleRun (events : List (ChainWatcher.Event Unit)) : Watcher :=
  ChainWatcher.run sampleDecode plainSealing sampleLibrary sampleConfig events

/-- The swap after the given number of calls, and the watcher about to handle the entry. -/
def watchedPath (calls : ℕ) (kind : WatchKind) : List (ChainWatcher.Event Unit) :=
  ((samplePath .bob ltc (some sampleSecret)).take calls).map .swaps ++
    [.addWatch openStore 1 (sampleEntry kind), .next quietTurn]

/-- The funding of the one side is confirmed before that of the other. The entry is dropped, and
the setter is accepted later. -/
theorem dropped_early :
    (sampleRun (watchedPath 4 .pricFunding)).pending = [sampleEntry .pricFunding] ∧
    (sampleRun (watchedPath 4 .pricFunding ++ [.next confirmedTurn])).pending = [] ∧
    (found sampleDecode plainSealing
        (sampleRun (watchedPath 4 .pricFunding ++ [.next confirmedTurn])).swaps sampleId).map
      (fun s => (s.state, s.pricFundingHeight)) = some (.preSigned, 0) ∧
    (sampleEntry .pricFunding).transition 5 =
      some (.setPricFunded (.replicate 32 51) 0 5) ∧
    (call sampleDecode plainSealing sampleEnv sampleId
        (.setPricFunded (.replicate 32 51) 0 5)
        (sampleRun (watchedPath 4 .pricFunding ++ [.next confirmedTurn,
          .swaps (sampleCall (.setBtcFunded (List.replicate 64 97) 0 1))])).swaps).1 =
      some .ok := by
  have htxid : fromHex (List.replicate 64 51) = some (.replicate 32 51) := by
    decide +kernel
  refine ⟨by decide +kernel, by decide +kernel, by decide +kernel, ?_, by decide +kernel⟩
  simp only [WatchEntry.transition, sampleEntry, htxid, map_some]

/-- The claim of a swap with both sides funded is heard. -/
theorem heard_claim :
    Always (ChainWatcher.step sampleDecode plainSealing sampleLibrary sampleConfig)
      (Heard sampleDecode plainSealing sampleLibrary) newWatcher
      (watchedPath 6 .pricClaim ++ [.next confirmedTurn]) := by
  have hpending : (sampleRun (watchedPath 6 .pricClaim)).pending = [sampleEntry .pricClaim] := by
    decide +kernel
  have hloaded : (sampleRun (watchedPath 6 .pricClaim)).swaps.loaded = true := by decide +kernel
  have hstate : (found sampleDecode plainSealing
      (sampleRun (watchedPath 6 .pricClaim)).swaps sampleId).map AdaptorSwap.state =
        some .bothFunded := by
    decide +kernel
  have hphase : (sampleRun (watchedPath 6 .pricClaim)).phase =
      .entries [sampleEntry .pricClaim] := by
    rw [← hpending]
    rfl
  have hheard : Heard sampleDecode plainSealing sampleLibrary
      (sampleRun (watchedPath 6 .pricClaim)) (.next confirmedTurn) := by
    simp only [Heard, hphase]
    refine ⟨?_, ?_, nofun, ?_⟩
    · intro p hp _
      rw [hpending] at hp
      exact List.mem_singleton.mp hp
    · intro hunloaded
      exact absurd (hloaded.symm.trans hunloaded) nofun
    · intro status _ _ _
      refine ⟨⟨rfl, rfl, nofun, rfl⟩, nofun, fun s hs => ?_⟩
      rw [show (sampleEntry .pricClaim).swapId = sampleId from rfl] at hs
      rw [hs, map_some, some.injEq] at hstate
      rw [hstate]
      decide
  rw [Always.append]
  refine ⟨?_, hheard, trivial⟩
  exact ⟨trivial, trivial, trivial, trivial, trivial, trivial, trivial, trivial, trivial⟩

theorem lawful_of_heard_claim :
    Lawful sampleDecode plainSealing (sampleRun (watchedPath 6 .pricClaim)).swaps
      (sampleRun (watchedPath 6 .pricClaim ++ [.next confirmedTurn])).swaps
      (sampleEntry .pricClaim) := by
  refine lawful_of_heard sampleDecode plainSealing sampleLibrary sampleConfig _ heard_claim
    (watchedPath 6 .pricClaim) confirmedTurn [] (sampleEntry .pricClaim) rfl ?_ ?_
  · have hpending : (sampleRun (watchedPath 6 .pricClaim)).pending =
        [sampleEntry .pricClaim] := by
      decide +kernel
    exact hpending ▸ List.mem_singleton_self _
  · have hdropped : (sampleRun (watchedPath 6 .pricClaim ++ [.next confirmedTurn])).pending =
        [] := by
      decide +kernel
    exact congrArg (getEntry sampleLibrary.digest sampleId .pricClaim) hdropped

end Sample

end Pricoin.WatchedEvents
