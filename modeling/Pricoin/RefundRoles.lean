import Pricoin.SpendDetection

/-!
Whose refunds the watcher hands over. The pass over litecoin and the pass over the coin
of this chain ask for the role, and all passes wait for the height. The pass over
bitcoin does not ask for the role, so it is on the side of the user only as long as the
refund of bitcoin is stored by Bob alone.
-/
namespace Pricoin.RefundRoles

open ByteStreams KeyImageFile DurableRecords AdaptorSwaps SwapHistories SwapSafety SwapStore Option
open ChainWatcher WatchedEvents SpendDetection Runs

variable {ι : Type} {turn : Turn ι} {phase : Phase} {tip : Int32} {queue : List AdaptorSwap}

section Statement

variable (decodeTx : Text → Option Uint256) (seals : Sealing ι) (lib : Library)
variable (cfg : Config)

/-- The refund is handed over between the two states. -/
def Hands (w w' : Watcher) (b : Broadcast) : Prop := w'.broadcasts = b :: w.broadcasts

/-- The refund of bitcoin is stored in no wallet but Bob's. -/
def BobStores (w : Watcher) : ChainWatcher.Event ι → Prop
  | .swaps (.call _ swapId (.setBtcRefundTx _)) =>
    ∀ s, found decodeTx seals w.swaps swapId = some s → s.foreignChain = btc → s.role = .bob
  | _ => True

/-- The node gave this tip when a pass began. -/
def PassTip (pre : List (ChainWatcher.Event ι)) (tip : Int32) : Prop :=
  ∃ before turn after, pre = before ++ .next turn :: after ∧
    (ChainWatcher.run decodeTx seals lib cfg before).phase = .refundBtc [] ∧
    turn.tip = some tip

/-- The refund goes to the user of the wallet, and its chain has come to the height of the
record. -/
structure Rightful (pre : List (ChainWatcher.Event ι)) (turn : Turn ι) (leg : Leg)
    (s : AdaptorSwap) : Prop where
  bob : leg ≠ .pric → s.role = .bob
  alice : leg = .pric → s.role = .alice
  foreignTip : leg ≠ .pric → ∃ tip, turn.tip = some tip ∧ s.foreignRefundHeight ≤ tip
  pricTip : leg = .pric → ∃ tip, PassTip decodeTx seals lib cfg pre tip ∧
    s.pricRefundHeight ≤ tip
  unclaimed : s.role = .alice → s.state = .pricClaimed → leg = .pric

end Statement

section Records

variable {decodeTx : Text → Option Uint256} {t : Transition} {s s' s'' : AdaptorSwap}

/-- The heights of the refunds are the same. -/
def SameHeights (s s' : AdaptorSwap) : Prop :=
  s'.pricRefundHeight = s.pricRefundHeight ∧ s'.foreignRefundHeight = s.foreignRefundHeight

theorem sameHeights_of_accepts (h : Accepts decodeTx t s s') (hs : s.state ≠ .setup) :
    SameHeights s s' := by
  cases h.move with
  | adaptorMaterials hstate => exact absurd hstate hs
  | refundTimelocks hstate => exact absurd hstate hs
  | pricClaimed _ _ hm => subst hm; split <;> exact ⟨rfl, rfl⟩
  | coopsignSession => split <;> exact ⟨rfl, rfl⟩
  | pricFundingPlanned _ _ _ _ hm => subst hm; split <;> exact ⟨rfl, rfl⟩
  | abort _ hm => subst hm; split <;> exact ⟨rfl, rfl⟩
  | _ => exact ⟨rfl, rfl⟩

/-- Past the first state the heights stay. -/
theorem sameHeights_of_later (h : Later decodeTx s s') (hs : s.state ≠ .setup) :
    SameHeights s s' := by
  induction h with
  | refl => exact ⟨rfl, rfl⟩
  | @tail r r' hlater hstep ih =>
    obtain ⟨t, m, nowSec, haccepts, rfl⟩ := hstep
    have hmove := sameHeights_of_accepts haccepts (ne_setup_of_later hlater hs)
    exact ⟨hmove.1.trans ih.1, hmove.2.trans ih.2⟩

/-- The refund of bitcoin is in Bob's records only. -/
def BobHolds (s : AdaptorSwap) : Prop :=
  s.foreignChain = btc → s.btcRefundUnsignedTxHex ≠ [] → s.role = .bob

theorem hex_of_accepts (h : Accepts decodeTx t s s') (ht : ∀ hex, t ≠ .setBtcRefundTx hex) :
    s'.btcRefundUnsignedTxHex = s.btcRefundUnsignedTxHex := by
  cases h.move with
  | adaptorMaterials hstate hsecret =>
    rcases recordSecret_cases hsecret with ⟨-, rfl⟩ | ⟨secret, -, rfl⟩
    · rcases recomputeAdaptorReady_cases _ with heq | ⟨-, -, -, -, heq⟩ <;> rw [heq]
    · rcases recomputeAdaptorReady_cases _ with heq | ⟨-, -, -, -, heq⟩ <;> rw [heq]
  | refundTimelocks =>
    rcases recomputeAdaptorReady_cases _ with heq | ⟨-, -, -, -, heq⟩ <;> rw [heq]
  | pricClaimed _ _ hm => subst hm; split <;> rfl
  | coopsignSession => split <;> rfl
  | @btcRefundTx hex => exact absurd rfl (ht hex)
  | pricFundingPlanned _ _ _ _ hm => subst hm; split <;> rfl
  | abort _ hm => subst hm; split <;> rfl
  | _ => rfl

theorem BobHolds.accepts (h : BobHolds s) (haccepts : Accepts decodeTx t s s')
    (ht : ∀ hex, t = .setBtcRefundTx hex → s.foreignChain = btc → s.role = .bob) :
    BobHolds s' := by
  have hsame := haccepts.move.sameSwap
  intro hchain hhex
  rw [hsame.foreignChain] at hchain
  rw [hsame.role]
  by_cases hset : ∃ hex, t = .setBtcRefundTx hex
  · obtain ⟨hex, hset⟩ := hset
    exact ht hex hset hchain
  · rw [hex_of_accepts haccepts fun hex heq => hset ⟨hex, heq⟩] at hhex
    exact h hchain hhex

end Records

section Queues

/-- The swaps that the pass has still to look at. -/
def queued : Phase → List AdaptorSwap
  | .idle => []
  | .entries _ => []
  | .detect queue => queue
  | .refundLtc queue => queue
  | .refundBtc queue => queue
  | .refundPric _ queue => queue

variable {decodeTx : Text → Option Uint256} {seals : Sealing ι} {lib : Library}
variable {cfg : Config} {w : Watcher} {table table' : Table}

/-- The swap's record comes from this one. -/
def Tracked (decodeTx : Text → Option Uint256) (table : Table) (s : AdaptorSwap) : Prop :=
  ∃ s', table s.swapId = some s' ∧ Later decodeTx s s'

theorem Tracked.follows {s : AdaptorSwap} (h : Tracked decodeTx table s)
    (hfollows : Follows decodeTx table table') : Tracked decodeTx table' s := by
  obtain ⟨s', hs', hlater⟩ := h
  obtain ⟨s'', hs'', hlater'⟩ := hfollows s.swapId s' hs'
  exact ⟨s'', hs'', hlater.trans hlater'⟩

theorem queued_goOn {result : Bool × Watcher} :
    queued (goOn phase result).phase ⊆ queued phase := by
  unfold goOn
  split
  · exact List.Subset.refl _
  · exact List.nil_subset _

/-- What a pass begins with are records as they are. -/
theorem tracked_startPass {pass : List AdaptorSwap → Phase}
    (h : KeepsTo decodeTx seals w.swaps table) (hpass : ∀ queue, queued (pass queue) = queue) :
    ∀ s ∈ queued (startPass decodeTx seals pass turn w).phase, Tracked decodeTx table s := by
  intro s hs
  unfold startPass at hs
  split at hs
  · cases hs
  · rename_i records c hlist
    rw [hpass] at hs
    obtain ⟨swapId, -, hrecord⟩ := List.mem_filterMap.mp hs
    have hfound : records = found decodeTx seals w.swaps :=
      found_of_list h (congrArg Prod.fst hlist)
    have htable := h.table_of_found (hfound ▸ hrecord)
    obtain rfl := h.coherent.keyed swapId s htable
    exact ⟨s, htable, .refl⟩
  · rw [hpass] at hs
    cases hs

/-- What is queued was so before, or is listed now. -/
theorem queued_next (h : KeepsTo decodeTx seals w.swaps table) {s : AdaptorSwap}
    (hs : s ∈ queued (next decodeTx seals lib cfg turn w).phase) :
    s ∈ queued w.phase ∨ Tracked decodeTx table s := by
  unfold next at hs
  split at hs
  · split at hs
    · cases hs
    · exact .inl hs
  · unfold handleNext at hs
    split at hs <;> cases hs
  · exact .inr (tracked_startPass h (fun _ => rfl) s hs)
  · rename_i hphase
    rw [hphase]
    exact .inl (List.mem_cons_of_mem _ hs)
  · split at hs
    · cases hs
    · exact .inr (tracked_startPass h (fun _ => rfl) s hs)
  · rename_i hphase
    rw [hphase]
    exact .inl (List.mem_cons_of_mem _ (queued_goOn hs))
  · split at hs
    · cases hs
    · exact .inr (tracked_startPass h (fun _ => rfl) s hs)
  · rename_i hphase
    rw [hphase]
    exact .inl (List.mem_cons_of_mem _ (queued_goOn hs))
  · split at hs
    · cases hs
    · split at hs
      · cases hs
      · exact .inr (tracked_startPass h (fun _ => rfl) s hs)
  · rename_i hphase
    rw [hphase]
    exact .inl (List.mem_cons_of_mem _ (queued_goOn hs))
  · cases hs

end Queues

section Guard

variable {decodeTx : Text → Option Uint256} {seals : Sealing ι} {lib : Library}
variable {cfg : Config} {w : Watcher} {table table' : Table} {e : WatchEntry}

/-- The wallet keeps to a table that has what the pass is looking at, and the refund of bitcoin
for Bob only. -/
structure Guarded (decodeTx : Text → Option Uint256) (seals : Sealing ι) (w : Watcher)
    (table : Table) : Prop where
  keeps : KeepsTo decodeTx seals w.swaps table
  tracked : ∀ s ∈ queued w.phase, Tracked decodeTx table s
  bob : ∀ swapId s, table swapId = some s → BobHolds s

theorem transition_ne {height : Int32} (h : e.transition height = some t) (hex : Text) :
    t ≠ .setBtcRefundTx hex := by
  rintro rfl
  unfold WatchEntry.transition at h
  cases hkind : e.kind <;> simp [hkind] at h

/-- An entry leaves the refund of bitcoin where it is. -/
theorem bobHolds_entered (h : Entered decodeTx turn e table table')
    (hbob : ∀ swapId s, table swapId = some s → BobHolds s) :
    ∀ swapId s, table' swapId = some s → BobHolds s := by
  rcases h with rfl | ⟨height, t, s₀, m, nowSec, -, ht, hs₀, haccepts, rfl⟩
  · exact hbob
  · intro swapId s hs
    by_cases hid : swapId = e.swapId
    · rw [hid, Function.update_self, some.injEq] at hs
      have hm : BobHolds m := (hbob e.swapId s₀ hs₀).accepts haccepts
        fun hex heq => absurd heq (transition_ne ht hex)
      rw [← hs]
      exact hm
    · rw [Function.update_of_ne hid] at hs
      exact hbob swapId s hs

theorem Guarded.next (h : Guarded decodeTx seals w table) (turn : Turn ι) :
    ∃ table', Guarded decodeTx seals (next decodeTx seals lib cfg turn w) table' := by
  by_cases hphase : ∃ e queue, w.phase = .entries (e :: queue)
  · obtain ⟨e, queue, hphase⟩ := hphase
    obtain ⟨handled, w', hhandle⟩ : ∃ handled w',
      handleEntry decodeTx seals turn e w = (handled, w') := ⟨_, _, rfl⟩
    obtain ⟨table', h', hentered⟩ := entered_handleEntry h.keeps hhandle
    have hnext : ChainWatcher.next decodeTx seals lib cfg turn w =
        handleNext decodeTx seals lib turn e queue w := by
      rw [ChainWatcher.next, hphase]
    have hswaps : (handleNext decodeTx seals lib turn e queue w).swaps = w'.swaps := by
      rw [swaps_handleNext, hhandle]
    rw [hnext]
    refine ⟨table', hswaps ▸ h', fun s hs => ?_, bobHolds_entered hentered h.bob⟩
    unfold handleNext at hs
    split at hs <;> cases hs
  · have hnone : ∀ e queue, w.phase ≠ .entries (e :: queue) :=
      fun e queue hq => hphase ⟨e, queue, hq⟩
    refine ⟨table, keepsTo_next h.keeps hnone, fun s hs => ?_, h.bob⟩
    rcases queued_next h.keeps hs with hs | hs
    · exact h.tracked s hs
    · exact hs

theorem Guarded.step {event : ChainWatcher.Event ι} (h : Guarded decodeTx seals w table)
    (hevent : BobStores decodeTx seals w event) :
    ∃ table', Guarded decodeTx seals (step decodeTx seals lib cfg w event) table' := by
  cases event with
  | swaps event =>
    obtain ⟨table', heffect, h'⟩ := keepsTo_step h.keeps event
    refine ⟨table', ?_, fun s hs => ?_, heffect.forall_record ?_ ?_ h.bob⟩
    · rw [swaps_step]
      exact h'
    · cases event with
      | restart => cases hs
      | _ => exact (h.tracked s hs).follows heffect.follows
    · exact fun _ _ _ _ _ hhex => absurd rfl hhex
    · rintro env swapId t s m rfl hview - haccepts hs
      have hm : BobHolds m := by
        refine hs.accepts haccepts ?_
        rintro hex rfl
        exact hevent s hview
      exact hm
  | addWatch env unixTime e => exact ⟨table, h.keeps, h.tracked, h.bob⟩
  | removeWatch env swapId kind => exact ⟨table, h.keeps, h.tracked, h.bob⟩
  | next turn => exact h.next turn

theorem guarded_run {events : List (ChainWatcher.Event ι)}
    (hevents : Always (step decodeTx seals lib cfg) (BobStores decodeTx seals) newWatcher
      events) :
    ∃ table, Guarded decodeTx seals
      (ChainWatcher.run decodeTx seals lib cfg events) table := by
  have hstep : ∀ w event, BobStores decodeTx seals w event →
      (∃ table, Guarded decodeTx seals w table) →
      ∃ table, Guarded decodeTx seals (step decodeTx seals lib cfg w event) table :=
    fun w event hevent ⟨table, hw⟩ => hw.step hevent
  have hnew : Guarded decodeTx seals newWatcher fun _ => none :=
    ⟨keepsTo_empty decodeTx seals, fun _ hs => (by cases hs), fun _ _ hs => (by cases hs)⟩
  exact hevents.invariant hstep ⟨_, hnew⟩

end Guard

section Steps

variable {decodeTx : Text → Option Uint256} {seals : Sealing ι} {lib : Library}
variable {cfg : Config} {w w' : Watcher} {table : Table} {leg : Leg}
variable {swapId : Uint256} {s : AdaptorSwap} {b : Broadcast}

/-- Nothing is handed over, or the refund of the swap. -/
def HandsAtMost (leg : Leg) (swapId : Uint256) (w w' : Watcher) : Prop :=
  w'.broadcasts = w.broadcasts ∨ ∃ tx, Hands w w' ⟨leg, swapId, tx⟩

theorem HandsAtMost.eq (h : HandsAtMost leg swapId w w') (hb : Hands w w' b) :
    b.leg = leg ∧ b.swapId = swapId := by
  unfold Hands at hb
  rcases h with heq | ⟨tx, heq⟩
  · exact absurd (hb.symm.trans heq) (List.cons_ne_self b w.broadcasts)
  · obtain rfl := (List.cons.inj (hb.symm.trans heq)).1
    exact ⟨rfl, rfl⟩

theorem handsAtMost_broadcastForeign (tx : Text) (w : Watcher) :
    HandsAtMost leg swapId w (broadcastForeign lib turn leg swapId tx w).2 := by
  unfold broadcastForeign
  split
  · exact .inl rfl
  · simp only
    split <;> exact .inr ⟨tx, rfl⟩

theorem handsAtMost_broadcastPric (tx : Text × Text) (w : Watcher) :
    HandsAtMost .pric swapId w (broadcastPric lib turn swapId tx w).2 := by
  unfold broadcastPric
  simp only
  split <;> exact .inr ⟨tx.1, rfl⟩

theorem found_of_get {c c' : Wallet} {env : Env ι} (h : KeepsTo decodeTx seals c table)
    (hget : get decodeTx seals env swapId c = (some (.ok s), c')) :
    found decodeTx seals c swapId = some s := by
  unfold AdaptorSwaps.get lookup at hget
  split at hget
  · cases hget
  · generalize hload : ensureLoaded (format decodeTx) seals env.toConditions c = result
      at hget
    obtain ⟨loading, c''⟩ := result
    cases loading with
    | threw => cases hget
    | failed => cases hget
    | done =>
      have hstore : found decodeTx seals c swapId = c''.store swapId :=
        h.coherent.recorded_eq hload swapId
      simp only [Prod.mk.injEq, some.injEq] at hget
      rw [hstore]
      split at hget
      · rename_i s' hs'
        rw [hs', LookupResult.ok.inj hget.1]
      · cases hget.1

/-- What a helper hands over is built from the record as it is found. -/
theorem hands_autoBroadcast {α : Type} {build : AdaptorSwap → Option α}
    {broadcast : α → Watcher → Bool × Watcher} (h : KeepsTo decodeTx seals w.swaps table)
    (hbroadcast : ∀ tx w, HandsAtMost leg swapId w (broadcast tx w).2)
    (hb : Hands w (autoBroadcast decodeTx seals turn swapId build broadcast w).2 b) :
    b.leg = leg ∧ b.swapId = swapId ∧
      ∃ s, found decodeTx seals w.swaps swapId = some s ∧ build s ≠ none := by
  unfold autoBroadcast at hb
  split at hb
  · exact absurd hb.symm (List.cons_ne_self b w.broadcasts)
  · rename_i s c hget
    split at hb
    · exact absurd hb.symm (List.cons_ne_self b w.broadcasts)
    · rename_i tx htx
      obtain ⟨hleg, hid⟩ := (hbroadcast tx { w with swaps := c }).eq hb
      refine ⟨hleg, hid, s, found_of_get h hget, ?_⟩
      rw [htx]
      exact some_ne_none tx
  · exact absurd hb.symm (List.cons_ne_self b w.broadcasts)

theorem broadcasts_noteAttempt (leg : Leg) (swapId : Uint256) (result : Option Bool × Watcher) :
    (noteAttempt leg swapId result).2.broadcasts = result.2.broadcasts := by
  unfold noteAttempt
  split <;> rfl

theorem broadcasts_goOn (phase : Phase) (result : Bool × Watcher) :
    (goOn phase result).broadcasts = result.2.broadcasts := by
  unfold goOn
  split <;> rfl

theorem hands_goOn {result : Option Bool × Watcher}
    (hb : Hands w (goOn phase (noteAttempt leg swapId result)) b) : Hands w result.2 b := by
  unfold Hands at hb ⊢
  rwa [broadcasts_goOn, broadcasts_noteAttempt] at hb

theorem not_hands_goOn {ok : Bool} {w' : Watcher} (hw : w'.broadcasts = w.broadcasts) :
    ¬ Hands w (goOn phase (ok, w')) b := by
  unfold Hands
  rw [broadcasts_goOn, hw]
  exact (List.cons_ne_self b w.broadcasts).symm

/-- A foreign coin is refunded from its height on. -/
theorem hands_tryAutoRefundForeign {chain : Text} {wanted : AdaptorSwap → Bool}
    {broadcast : Turn ι → Uint256 → Watcher → Option Bool × Watcher}
    (hb : Hands w (goOn phase (tryAutoRefundForeign leg chain wanted broadcast turn s w)) b) :
    wanted s = true ∧ (∃ tip, turn.tip = some tip ∧ s.foreignRefundHeight ≤ tip) ∧
      Hands w (broadcast turn s.swapId w).2 b := by
  unfold tryAutoRefundForeign at hb
  split at hb
  · exact absurd hb (not_hands_goOn rfl)
  rename_i hwanted
  split at hb
  · exact absurd hb (not_hands_goOn rfl)
  split at hb
  · exact absurd hb (not_hands_goOn rfl)
  split at hb
  · exact absurd hb (not_hands_goOn rfl)
  split at hb
  · exact absurd hb (not_hands_goOn rfl)
  rename_i tip htip
  split at hb
  · exact absurd hb (not_hands_goOn rfl)
  rename_i hdue
  exact ⟨by simpa using hwanted, ⟨tip, htip, Int32.not_lt.mp hdue⟩, hands_goOn hb⟩

theorem hands_tryAutoRefundPric
    (hb : Hands w (goOn phase (tryAutoRefundPric decodeTx seals lib tip turn s w)) b) :
    wantsPricRefund s = true ∧ s.pricRefundHeight ≤ tip ∧
      Hands w (autoBroadcastPricRefund decodeTx seals lib turn s.swapId w).2 b := by
  unfold tryAutoRefundPric at hb
  split at hb
  · exact absurd hb (not_hands_goOn rfl)
  rename_i hwanted
  split at hb
  · exact absurd hb (not_hands_goOn rfl)
  split at hb
  · exact absurd hb (not_hands_goOn rfl)
  rename_i hdue
  exact ⟨by simpa using hwanted, Int32.not_lt.mp hdue, hands_goOn hb⟩

/-- Where no refund is tried, none is handed over. -/
theorem broadcasts_next (hidle : w.phase ≠ .idle) (hrefunds : ∀ leg s, ¬ w.phase.Refunds leg s) :
    (next decodeTx seals lib cfg turn w).broadcasts = w.broadcasts := by
  by_cases hphase : ∃ e queue, w.phase = .entries (e :: queue)
  · obtain ⟨e, queue, hphase⟩ := hphase
    have hentry : (handleEntry decodeTx seals turn e w).2.broadcasts = w.broadcasts := by
      refine handleEntry_rel (R := fun w w' => w'.broadcasts = w.broadcasts)
        (fun h h' => h'.trans h) ?_ ?_ e w
      · exact fun _ _ _ => rfl
      · exact fun _ _ => rfl
    simp only [next, hphase, handleNext]
    split
    all_goals
      rename_i hhandled
      rw [hhandled] at hentry
      exact hentry
  · have hmoves : Moves decodeTx seals lib turn w.phase
        fun w w' => w'.broadcasts = w.broadcasts :=
      { trans := fun h h' => h'.trans h
        look := fun _ _ _ => rfl
        goto := fun _ _ => rfl
        clear := fun h => absurd h hidle
        fail := fun _ _ _ => rfl
        log := fun hs => absurd hs (hrefunds _ _)
        attempt := fun _ _ => rfl
        detect := fun _ _ _ _ => rfl
        watch := fun _ _ _ _ => rfl
        add := fun _ _ _ => rfl }
    exact hmoves.next fun e queue hq => hphase ⟨e, queue, hq⟩

theorem refunds_cases (h : phase.Refunds leg s) :
    (∃ queue, phase = .refundLtc (s :: queue)) ∨ (∃ queue, phase = .refundBtc (s :: queue)) ∨
      ∃ tip queue, phase = .refundPric tip (s :: queue) := by
  unfold Phase.Refunds at h
  split at h
  · obtain ⟨-, rfl⟩ := h
    exact .inl ⟨_, rfl⟩
  · obtain ⟨-, rfl⟩ := h
    exact .inr (.inl ⟨_, rfl⟩)
  · obtain ⟨-, rfl⟩ := h
    exact .inr (.inr ⟨_, _, rfl⟩)
  · exact absurd h id

theorem refunds_of_hands (hb : Hands w (next decodeTx seals lib cfg turn w) b) :
    ∃ leg s, w.phase.Refunds leg s := by
  by_contra hnone
  have hrefunds : ∀ leg s, ¬ w.phase.Refunds leg s := fun leg s hs => hnone ⟨leg, s, hs⟩
  unfold Hands at hb
  by_cases hidle : w.phase = .idle
  · rw [next, hidle] at hb
    simp only at hb
    split at hb
    · cases hb
    · exact List.cons_ne_self b w.broadcasts hb.symm
  · rw [broadcasts_next hidle hrefunds] at hb
    exact List.cons_ne_self b w.broadcasts hb.symm

theorem role_of_ltcRefund {locked : Bool} {dest : Text} {fee : Int64}
    (h : ltcRefund lib locked dest fee s ≠ none) : s.role = .bob := by
  by_contra hrole
  apply h
  unfold ltcRefund
  split_ifs <;> rfl

theorem holds_of_btcRefund (h : btcRefund lib s ≠ none) :
    s.foreignChain = btc ∧ s.btcRefundUnsignedTxHex ≠ [] := by
  unfold btcRefund at h
  split_ifs at h with hchain hstate htxid hhex hsig <;> try exact absurd rfl h
  exact ⟨not_not.mp hchain, hhex⟩

/-- The record that is found comes from the one in the queue. -/
theorem Guarded.later {s' : AdaptorSwap} (h : Guarded decodeTx seals w table)
    (hs : s ∈ queued w.phase) (hs' : found decodeTx seals w.swaps s.swapId = some s') :
    Later decodeTx s s' := by
  obtain ⟨s'', hs'', hlater⟩ := h.tracked s hs
  obtain rfl := some.inj (hs''.symm.trans (h.keeps.table_of_found hs'))
  exact hlater

/-- What the record has of which a foreign refund is handed over. -/
theorem record_of_hands_foreign {chain : Text} {wanted : AdaptorSwap → Bool} {phase : Phase}
    {build : Turn ι → AdaptorSwap → Option Text} (h : Guarded decodeTx seals w table)
    (hs : s ∈ queued w.phase) (hwanted : wanted s = true → s.state ≠ .setup)
    (hbuild : ∀ s', BobHolds s' → build turn s' ≠ none → s'.role = .bob)
    (hb : Hands w (goOn phase (tryAutoRefundForeign leg chain wanted
      (fun turn swapId => autoBroadcast decodeTx seals turn swapId (build turn)
        (broadcastForeign lib turn leg swapId)) turn s w)) b) :
    b.leg = leg ∧ ∃ s', found decodeTx seals w.swaps b.swapId = some s' ∧ s'.role = .bob ∧
      ∃ tip, turn.tip = some tip ∧ s'.foreignRefundHeight ≤ tip := by
  obtain ⟨hsetup, ⟨tip, htip, hdue⟩, hb⟩ := hands_tryAutoRefundForeign hb
  obtain ⟨hleg, hid, s', hs', hbuilt⟩ :=
    hands_autoBroadcast h.keeps handsAtMost_broadcastForeign hb
  have hheight := (sameHeights_of_later (h.later hs hs') (hwanted hsetup)).2
  rw [← hid] at hs'
  refine ⟨hleg, s', hs', hbuild s' (h.bob _ s' (h.keeps.table_of_found hs')) hbuilt, tip, htip, ?_⟩
  rw [hheight]
  exact hdue

theorem ne_setup_of_funded {state : State} (h : funded state = true) : state ≠ .setup := by
  rintro rfl
  cases h

/-- What the record of a swap has of which a refund is handed over at this step. -/
theorem record_of_hands (h : Guarded decodeTx seals w table)
    (hb : Hands w (next decodeTx seals lib cfg turn w) b) :
    ∃ s, found decodeTx seals w.swaps b.swapId = some s ∧
      (b.leg ≠ .pric → s.role = .bob ∧
        ∃ tip, turn.tip = some tip ∧ s.foreignRefundHeight ≤ tip) ∧
      (b.leg = .pric → s.role = .alice ∧
        ∃ tip queue, w.phase = .refundPric tip queue ∧ s.pricRefundHeight ≤ tip) := by
  obtain ⟨leg, s, hrefunds⟩ := refunds_of_hands hb
  rcases refunds_cases hrefunds with ⟨queue, hphase⟩ | ⟨queue, hphase⟩ | ⟨tip, queue, hphase⟩
  · have hmem : s ∈ queued w.phase := hphase ▸ List.mem_cons_self
    have hwanted : wantsLtcRefund s = true → s.state ≠ .setup := by
      intro hwants
      simp only [wantsLtcRefund, decide_eq_true_eq] at hwants
      exact ne_setup_of_funded hwants.2.2.1
    rw [next, hphase] at hb
    obtain ⟨hleg, s', hs', hrole, htip⟩ :=
      record_of_hands_foreign h hmem hwanted (fun s' _ => role_of_ltcRefund) hb
    exact ⟨s', hs', fun _ => ⟨hrole, htip⟩, fun hpric => by rw [hleg] at hpric; cases hpric⟩
  · have hmem : s ∈ queued w.phase := hphase ▸ List.mem_cons_self
    have hwanted : wantsBtcRefund s = true → s.state ≠ .setup := by
      intro hwants
      simp only [wantsBtcRefund, decide_eq_true_eq] at hwants
      exact ne_setup_of_funded hwants.2.1
    have hbuild : ∀ s', BobHolds s' → btcRefund lib s' ≠ none → s'.role = .bob := by
      intro s' hbob hbuilt
      obtain ⟨hchain, hhex⟩ := holds_of_btcRefund hbuilt
      exact hbob hchain hhex
    rw [next, hphase] at hb
    obtain ⟨hleg, s', hs', hrole, htip⟩ := record_of_hands_foreign h hmem hwanted hbuild hb
    exact ⟨s', hs', fun _ => ⟨hrole, htip⟩, fun hpric => by rw [hleg] at hpric; cases hpric⟩
  · have hmem : s ∈ queued w.phase := hphase ▸ List.mem_cons_self
    rw [next, hphase] at hb
    obtain ⟨hwanted, hdue, hb⟩ := hands_tryAutoRefundPric hb
    obtain ⟨hleg, hid, s', hs', -⟩ :=
      hands_autoBroadcast h.keeps handsAtMost_broadcastPric hb
    simp only [wantsPricRefund, decide_eq_true_eq] at hwanted
    have hlater := h.later hmem hs'
    have hsetup : s.state ≠ .setup := by
      rcases hwanted.2.1 with hstate | hstate <;> rw [hstate] <;> decide
    refine ⟨s', hid ▸ hs', fun hne => absurd hleg hne, fun _ => ⟨?_, tip, _, hphase, ?_⟩⟩
    · rw [(sameCreation_of_later hlater).role]
      exact hwanted.1
    · rw [(sameHeights_of_later hlater hsetup).1]
      exact hdue

end Steps

section Runs

variable {decodeTx : Text → Option Uint256} {seals : Sealing ι} {lib : Library}
variable {cfg : Config} {w : Watcher}

theorem phase_goOn_pric {result : Bool × Watcher}
    (h : (goOn phase result).phase = .refundPric tip queue) : phase = .refundPric tip queue := by
  unfold goOn at h
  split at h
  · exact h
  · cases h

theorem phase_startPass_pric {pass : List AdaptorSwap → Phase}
    (h : (startPass decodeTx seals pass turn w).phase = .refundPric tip queue) :
    ∃ queue', pass queue' = .refundPric tip queue := by
  unfold startPass at h
  split at h
  · cases h
  · exact ⟨_, h⟩
  · exact ⟨_, h⟩

/-- The last pass begins with the tip of the node and keeps it. -/
theorem tip_next (h : (next decodeTx seals lib cfg turn w).phase = .refundPric tip queue) :
    (w.phase = .refundBtc [] ∧ turn.tip = some tip) ∨
      ∃ queue', w.phase = .refundPric tip queue' := by
  unfold next at h
  split at h
  · rename_i hidle
    split at h
    · cases h
    · exact .inr ⟨queue, h⟩
  · unfold handleNext at h
    split at h <;> cases h
  · obtain ⟨_, hpass⟩ := phase_startPass_pric h
    cases hpass
  · cases h
  · split at h
    · cases h
    · obtain ⟨_, hpass⟩ := phase_startPass_pric h
      cases hpass
  · cases phase_goOn_pric h
  · split at h
    · cases h
    · obtain ⟨_, hpass⟩ := phase_startPass_pric h
      cases hpass
  · cases phase_goOn_pric h
  · rename_i hphase
    split at h
    · cases h
    · split at h
      · cases h
      · rename_i tip' htip
        obtain ⟨_, hpass⟩ := phase_startPass_pric h
        obtain ⟨rfl, -⟩ := Phase.refundPric.inj hpass
        exact .inl ⟨hphase, htip⟩
  · rename_i hphase
    obtain ⟨rfl, -⟩ := Phase.refundPric.inj (phase_goOn_pric h)
    exact .inr ⟨_, hphase⟩
  · cases h

theorem PassTip.append {pre : List (ChainWatcher.Event ι)}
    (h : PassTip decodeTx seals lib cfg pre tip) (event : ChainWatcher.Event ι) :
    PassTip decodeTx seals lib cfg (pre ++ [event]) tip := by
  obtain ⟨before, turn, after, rfl, hphase, htip⟩ := h
  exact ⟨before, turn, after ++ [event], by simp, hphase, htip⟩

theorem passTip_of_phase {events : List (ChainWatcher.Event ι)}
    (h : (ChainWatcher.run decodeTx seals lib cfg events).phase = .refundPric tip queue) :
    PassTip decodeTx seals lib cfg events tip := by
  induction events using List.reverseRecOn generalizing queue with
  | nil => cases h
  | append_singleton events event ih =>
    rw [ChainWatcher.run, List.foldl_append] at h
    cases event with
    | swaps event =>
      cases event with
      | restart => cases h
      | _ => exact (ih h).append _
    | addWatch env unixTime e => exact (ih h).append _
    | removeWatch env swapId kind => exact (ih h).append _
    | next turn =>
      rcases tip_next h with ⟨hphase, htip⟩ | ⟨queue', hphase⟩
      · exact ⟨events, turn, [], rfl, hphase, htip⟩
      · exact (ih hphase).append _

/-- In a run in which no wallet but Bob's stores the refund of bitcoin, what is handed over is
rightful at that step. -/
theorem rightful_of_hands (decodeTx : Text → Option Uint256) (seals : Sealing ι)
    (lib : Library) (cfg : Config) (events : List (ChainWatcher.Event ι))
    (hevents : Always (step decodeTx seals lib cfg) (BobStores decodeTx seals) newWatcher
      events) :
    ∀ pre turn post b, events = pre ++ .next turn :: post →
      Hands (ChainWatcher.run decodeTx seals lib cfg pre)
        (ChainWatcher.run decodeTx seals lib cfg (pre ++ [.next turn])) b →
      ∃ s, found decodeTx seals (ChainWatcher.run decodeTx seals lib cfg pre).swaps
          b.swapId = some s ∧
        Rightful decodeTx seals lib cfg pre turn b.leg s := by
  rintro pre turn post b rfl hb
  obtain ⟨table, h⟩ := guarded_run (Always.append.mp hevents).1
  have hrun : ChainWatcher.run decodeTx seals lib cfg (pre ++ [.next turn]) =
      next decodeTx seals lib cfg turn (ChainWatcher.run decodeTx seals lib cfg pre) :=
    List.foldl_append
  rw [hrun] at hb
  obtain ⟨s, hs, hforeign, hpric⟩ := record_of_hands h hb
  refine ⟨s, hs, fun hleg => (hforeign hleg).1, fun hleg => (hpric hleg).1,
    fun hleg => (hforeign hleg).2, fun hleg => ?_, fun hrole _ => ?_⟩
  · obtain ⟨-, tip, queue, hphase, hdue⟩ := hpric hleg
    exact ⟨tip, passTip_of_phase hphase, hdue⟩
  · by_contra hleg
    have hbob := (hforeign hleg).1
    rw [hrole] at hbob
    cases hbob

end Runs

section Sample

/-- A library in which every refund of bitcoin can be finished. -/
def refundLibrary : Library := { sampleLibrary with finalBtcRefund := fun hex _ => some hex }

def refundConfig : Config := ⟨true, []⟩

/-- The calls of a swap with bitcoin up to the claim of the other coin, and some steps of a tick
with the chain at the height of the refund. -/
def claimedPath (role : Role) (secret : Option (Bytes 32)) (steps : ℕ) :
    List (ChainWatcher.Event Unit) :=
  ([.create sampleEnv (sampleArgs role btc),
    sampleCall (.setAdaptorMaterials (.replicate 33 2) (.replicate 33 3) [1]
      secret),
    sampleCall (.setRefundTimelocks 10 20 5),
    sampleCall (.setBtcRefundTx (List.replicate 20 97)),
    sampleCall (.setPreSigned samplePreSigs),
    sampleCall (.setBtcFunded (List.replicate 64 97) 0 1),
    sampleCall (.setPricFunded sampleTxid 0 1),
    sampleCall (.setPricClaimed sampleTxid)] : List (AdaptorSwaps.Event Unit)).map .swaps ++
    List.replicate steps (.next refundTurn)

def claimedRun (role : Role) (secret : Option (Bytes 32)) (steps : ℕ) : Watcher :=
  ChainWatcher.run sampleDecode plainSealing refundLibrary refundConfig
    (claimedPath role secret steps)

/-- The claim of the other coin is out, so the bitcoin is Alice's, and her wallet hands over the
refund that pays it to Bob. -/
theorem hands_against_alice :
    (found sampleDecode plainSealing (claimedRun .alice none 5).swaps sampleId).map
      (fun s => (s.role, s.state)) = some (.alice, .pricClaimed) ∧
    Hands (claimedRun .alice none 5) (claimedRun .alice none 6)
      ⟨.btc, sampleId, List.replicate 20 97⟩ := by
  unfold Hands
  exact ⟨by decide +kernel, by decide +kernel⟩

theorem rightful_of_hands_bob :
    Hands (claimedRun .bob (some sampleSecret) 5) (claimedRun .bob (some sampleSecret) 6)
      ⟨.btc, sampleId, List.replicate 20 97⟩ ∧
    ∃ s, found sampleDecode plainSealing (claimedRun .bob (some sampleSecret) 5).swaps sampleId =
        some s ∧
      Rightful sampleDecode plainSealing refundLibrary refundConfig
        (claimedPath .bob (some sampleSecret) 5) refundTurn .btc s := by
  have hhands : Hands (claimedRun .bob (some sampleSecret) 5)
      (claimedRun .bob (some sampleSecret) 6) ⟨.btc, sampleId, List.replicate 20 97⟩ := by
    unfold Hands
    decide +kernel
  have hstores : Always (step sampleDecode plainSealing refundLibrary refundConfig)
      (BobStores sampleDecode plainSealing) newWatcher
      (claimedPath .bob (some sampleSecret) 6) := by
    have hrole : (found sampleDecode plainSealing (ChainWatcher.run sampleDecode plainSealing
        refundLibrary refundConfig ((claimedPath .bob (some sampleSecret) 6).take 3)).swaps
          sampleId).map AdaptorSwap.role = some .bob := by
      decide +kernel
    refine ⟨trivial, trivial, trivial, fun s hs _ => ?_, trivial, trivial, trivial, trivial,
      trivial, trivial, trivial, trivial, trivial, trivial, trivial⟩
    change found sampleDecode plainSealing (ChainWatcher.run sampleDecode plainSealing
        refundLibrary refundConfig ((claimedPath .bob (some sampleSecret) 6).take 3)).swaps
          sampleId = some s at hs
    rw [hs] at hrole
    exact some.inj hrole
  exact ⟨hhands, rightful_of_hands sampleDecode plainSealing refundLibrary refundConfig _ hstores
    (claimedPath .bob (some sampleSecret) 5) refundTurn [] _ rfl hhands⟩

end Sample

end Pricoin.RefundRoles
