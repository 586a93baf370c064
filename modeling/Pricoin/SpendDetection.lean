import Pricoin.TerminalSwaps
import Pricoin.WatchedEvents

/-!
Spends that the watcher finds. It takes any spend of the foreign coin for the claim of the
other side, its own refund included. As long as it is told of no refund of its own, a swap
that it completes was claimed, and one whose coin came back is refunded.
-/
namespace Pricoin.SpendDetection

open ByteStreams KeyImageFile DurableRecords SwapHistories SwapSafety SwapStore Option Function
open AdaptorSwaps hiding run step Event
open ChainWatcher WatchedEvents Checks Runs

variable {t : Transition}

variable {ι : Type} {decodeTx : Text → Option Uint256} {seals : Sealing ι} {lib : Library}
  {cfg : Config} {turn : Turn ι} {phase : Phase} {e : WatchEntry}

section Statement

/-- No spend that the watcher is told of is a refund of its own, and no refund has the id of a
spend that it was told of. -/
def Told (w : Watcher) : Event ι → Prop
  | .next turn =>
    (∀ s os, w.phase.Detects s → turn.outspend = some os → os.spent = true →
      (s.swapId, os.spendingTxid) ∉ w.refundTxids) ∧
    ∀ leg s txid, w.phase.Refunds leg s → leg ≠ .pric → turn.broadcast = some txid →
      (s.swapId, txid) ∉ w.detected
  | _ => True

/-- The chain tells that the transaction of the entry is confirmed. -/
def Deep (turn : Turn ι) (e : WatchEntry) : Prop :=
  ∃ status, turn.status = some status ∧ status.found = true ∧
    e.minConfirmations ≤ status.confirmations

/-- The watcher asks the chain, and is told that the transaction of the entry is confirmed. -/
structure Confirmed (w : Watcher) (turn : Turn ι) (e : WatchEntry) (s : AdaptorSwap) : Prop where
  client : turn.client = true
  calm : coolingDown w s.foreignChain turn.now = false
  deep : Deep turn e

/-- The setters that end a swap. -/
def Finishes : Transition → Prop
  | .setComplete _ => True
  | .setRefunded _ _ => True
  | .abort _ => True
  | _ => False

/-- A refund of the swap is watched when it is taken, it can be recorded when it is confirmed, and
until then nothing else ends the swap or takes the place of its entry. -/
def Followed (decodeTx : Text → Option Uint256) (seals : Sealing ι) (swapId : Uint256)
    (w : Watcher) : Event ι → Prop
  | .swaps event => RowsFit w.swaps event ∧
    ∀ env t txid, event = .call env swapId t → (swapId, txid) ∈ w.refundTxids → ¬ Finishes t
  | .addWatch _ _ e => e.swapId = swapId → e.kind = .foreignRefund →
    ∀ txid, (swapId, txid) ∈ w.refundTxids → e.txidHex = txid
  | .removeWatch _ swapId' kind => ∀ txid, (swapId, txid) ∈ w.refundTxids →
    ¬ (swapId' = swapId ∧ kind = .foreignRefund)
  | .next turn =>
    (∀ leg s txid, w.phase.Refunds leg s → s.swapId = swapId → leg ≠ .pric →
      turn.broadcast = some txid →
      turn.addEnv = ⟨false, true, true⟩ ∧
      validEntry ⟨swapId, .foreignRefund, txid, 0, 1, 0⟩ = true ∧
      (∀ txid', (swapId, txid') ∈ w.refundTxids → txid' = txid) ∧
      ∃ s', found decodeTx seals w.swaps swapId = some s' ∧ funded s'.state = true) ∧
    ∀ e queue txid, w.phase = .entries (e :: queue) → e.swapId = swapId →
      (swapId, txid) ∈ w.refundTxids →
      (e.kind = .foreignRefund →
        (∀ p ∈ w.pending, p.swapId = swapId → p.kind = .foreignRefund → p = e) ∧
        turn.swapEnv.locked = false ∧ turn.swapEnv.reads = true) ∧
      (Deep turn e → e.kind ≠ .foreignClaim ∧ e.kind ≠ .pricRefund ∧
        (e.kind = .foreignRefund → Ready turn.setEnv))

/-- The refund has an entry. -/
def Watched (pending : List WatchEntry) (swapId : Uint256) (txid : Text) : Prop :=
  ∃ p ∈ pending, p.swapId = swapId ∧ p.kind = .foreignRefund ∧ p.txidHex = txid

/-- The swap ended with the refund. -/
def Returned (txid : Text) (s : AdaptorSwap) : Prop :=
  s.state = .refunded ∧ s.foreignRefundTxid = txid

end Statement

section Notes

variable {w w' : Watcher}

/-- What the watcher notes at a step: a spend that it is told of, or a refund that was taken. -/
structure Notes (turn : Turn ι) (phase : Phase) (w w' : Watcher) : Prop where
  detected : ∀ p ∈ w'.detected, p ∈ w.detected ∨ ∃ s os, phase.Detects s ∧
    turn.outspend = some os ∧ os.spent = true ∧ p = (s.swapId, os.spendingTxid)
  refunds : ∀ p ∈ w'.refundTxids, p ∈ w.refundTxids ∨ ∃ leg s txid, phase.Refunds leg s ∧
    leg ≠ .pric ∧ turn.broadcast = some txid ∧ p = (s.swapId, txid)
  keepsDetected : w.detected ⊆ w'.detected
  keepsRefunds : w.refundTxids ⊆ w'.refundTxids

theorem Notes.of_eq (hdetected : w'.detected = w.detected)
    (hrefunds : w'.refundTxids = w.refundTxids) : Notes turn phase w w' where
  detected _ hp := .inl (hdetected ▸ hp)
  refunds _ hp := .inl (hrefunds ▸ hp)
  keepsDetected := hdetected ▸ List.Subset.refl _
  keepsRefunds := hrefunds ▸ List.Subset.refl _

theorem Notes.trans {w w' w'' : Watcher} (h : Notes turn phase w w')
    (h' : Notes turn phase w' w'') : Notes turn phase w w'' where
  detected p hp := by
    rcases h'.detected p hp with hp | hnew
    · exact h.detected p hp
    · exact .inr hnew
  refunds p hp := by
    rcases h'.refunds p hp with hp | hnew
    · exact h.refunds p hp
    · exact .inr hnew
  keepsDetected := List.Subset.trans h.keepsDetected h'.keepsDetected
  keepsRefunds := List.Subset.trans h.keepsRefunds h'.keepsRefunds

/-- A pass notes what it is told. -/
theorem moves_notes (decodeTx : Text → Option Uint256) (seals : Sealing ι) (lib : Library)
    (turn : Turn ι) (phase : Phase) :
    Moves decodeTx seals lib turn phase (Notes turn phase) where
  trans := Notes.trans
  look _ _ _ := .of_eq rfl rfl
  goto _ _ := .of_eq rfl rfl
  clear _ _ := .of_eq rfl rfl
  fail _ _ _ := .of_eq rfl rfl
  log _ _ _ := .of_eq rfl rfl
  attempt _ _ := .of_eq rfl rfl
  detect {s os} hs hos hspent w := by
    refine ⟨fun p hp => ?_, fun p hp => .inl hp, List.subset_cons_self _ _, fun _ hp => hp⟩
    rcases List.mem_cons.mp hp with rfl | hp
    · exact .inr ⟨s, os, hs, hos, hspent, rfl⟩
    · exact .inl hp
  watch {leg s txid} hs hleg htxid w := by
    refine ⟨fun p hp => .inl hp, fun p hp => ?_, fun _ hp => hp, List.subset_cons_self _ _⟩
    rcases List.mem_cons.mp hp with rfl | hp
    · exact .inr ⟨leg, s, txid, hs, hleg, htxid, rfl⟩
    · exact .inl hp
  add _ _ _ := .of_eq rfl rfl

theorem notes_handleNext {queue : List WatchEntry} :
    Notes turn phase w (handleNext decodeTx seals lib turn e queue w) := by
  have hentry : Notes turn phase w (handleEntry decodeTx seals turn e w).2 := by
    refine handleEntry_rel (R := Notes turn phase) Notes.trans ?_ ?_ e w
    · exact fun _ _ _ => .of_eq rfl rfl
    · exact fun _ _ => .of_eq rfl rfl
  unfold handleNext
  split
  all_goals
    rename_i hhandled
    rw [hhandled] at hentry
    exact hentry.trans (.of_eq rfl rfl)

theorem notes_next : Notes turn w.phase w (next decodeTx seals lib cfg turn w) := by
  by_cases hphase : ∃ e queue, w.phase = .entries (e :: queue)
  · obtain ⟨e, queue, hphase⟩ := hphase
    have hnext : next decodeTx seals lib cfg turn w =
        handleNext decodeTx seals lib turn e queue w := by
      simp only [next, hphase]
    rw [hnext]
    exact notes_handleNext
  · exact (moves_notes decodeTx seals lib turn w.phase).next fun e queue hq =>
      hphase ⟨e, queue, hq⟩

/-- No spend that was found is a refund. -/
def Apart (w : Watcher) : Prop := ∀ p ∈ w.detected, p ∉ w.refundTxids

theorem Apart.step {event : Event ι} (hw : Apart w) (h : Told w event) :
    Apart (step decodeTx seals lib cfg w event) := by
  cases event with
  | swaps event => cases event <;> exact hw
  | addWatch => exact hw
  | removeWatch => exact hw
  | next turn =>
    obtain ⟨hspend, hrefund⟩ := h
    have hnotes : Notes turn w.phase w (next decodeTx seals lib cfg turn w) := notes_next
    intro p hp hp'
    rcases hnotes.detected p hp with hold | ⟨s, os, hs, hos, hspent, rfl⟩
    · rcases hnotes.refunds p hp' with hold' | ⟨leg, s, txid, hs, hleg, htxid, rfl⟩
      · exact hw p hold hold'
      · exact hrefund leg s txid hs hleg htxid hold
    · rcases hnotes.refunds _ hp' with hold' | ⟨leg, s', txid, hs', -, -, -⟩
      · exact hspend s os hs hos hspent hold'
      · -- a step does not look for spends and try refunds
        generalize w.phase = phase at hs hs'
        unfold Phase.Detects at hs
        split at hs
        · exact hs'
        · exact hs

theorem notes_step (event : Event ι) :
    w.detected ⊆ (step decodeTx seals lib cfg w event).detected ∧
      w.refundTxids ⊆ (step decodeTx seals lib cfg w event).refundTxids := by
  cases event with
  | swaps event => cases event <;> exact ⟨List.Subset.refl _, List.Subset.refl _⟩
  | addWatch => exact ⟨List.Subset.refl _, List.Subset.refl _⟩
  | removeWatch => exact ⟨List.Subset.refl _, List.Subset.refl _⟩
  | next turn =>
    have hnotes : Notes turn w.phase w (next decodeTx seals lib cfg turn w) := notes_next
    exact ⟨hnotes.keepsDetected, hnotes.keepsRefunds⟩

theorem detected_foldl (events : List (Event ι)) (w : Watcher) :
    w.detected ⊆ (events.foldl (step decodeTx seals lib cfg) w).detected := by
  induction events generalizing w with
  | nil => exact List.Subset.refl _
  | cons event events ih => exact List.Subset.trans (notes_step event).1 (ih _)

end Notes

section Records

variable {w w' : Watcher} {e : WatchEntry} {table : Table}

/-- What an entry can do to the table of records. -/
def Entered (decodeTx : Text → Option Uint256) (turn : Turn ι) (e : WatchEntry)
    (table table' : Table) : Prop :=
  table' = table ∨ ∃ height t s m nowSec, Deep turn e ∧ e.transition height = some t ∧
    table e.swapId = some s ∧ Accepts decodeTx t s m ∧
    table' = Function.update table e.swapId (some { m with updatedTime := nowSec })

theorem keepsTo_get {env : Env ι} {swapId : Uint256} {c c' : Wallet}
    {result : Option (LookupResult AdaptorSwap)} (h : KeepsTo decodeTx seals c table)
    (hget : get decodeTx seals env swapId c = (result, c')) :
    KeepsTo decodeTx seals c' table := by
  have hstep : AdaptorSwaps.step decodeTx seals c (.get env swapId) = c' :=
    congrArg Prod.snd hget
  obtain ⟨table', heffect, h'⟩ := keepsTo_step h (.get env swapId)
  rw [hstep] at h'
  cases heffect with
  | kept => exact h'

theorem entered_applyTransition {status : TxStatus} {handled : Handled}
    (h : KeepsTo decodeTx seals w.swaps table) (hstatus : turn.status = some status)
    (happly : applyTransition decodeTx seals turn e status w = (handled, w')) :
    ∃ table', KeepsTo decodeTx seals w'.swaps table' ∧ Entered decodeTx turn e table table' := by
  have hsame : w'.swaps = w.swaps → ∃ table', KeepsTo decodeTx seals w'.swaps table' ∧
      Entered decodeTx turn e table table' := fun heq => ⟨table, heq ▸ h, .inl rfl⟩
  unfold applyTransition at happly
  split at happly
  · exact hsame (congrArg (fun result => result.2.swaps) happly).symm
  rename_i hdeep
  simp only [not_or, Bool.not_eq_true, Bool.not_eq_false', Int32.not_lt] at hdeep
  split at happly
  · exact hsame (congrArg (fun result => result.2.swaps) happly).symm
  rename_i t ht
  have hswaps : w'.swaps = (call decodeTx seals turn.setEnv e.swapId t w.swaps).2 := by
    split at happly
    all_goals
      rename_i hcall
      obtain ⟨-, rfl⟩ := Prod.mk.inj happly
      rw [hcall]
  obtain ⟨table', heffect, h'⟩ := keepsTo_step h (.call turn.setEnv e.swapId t)
  refine ⟨table', hswaps ▸ h', ?_⟩
  generalize AdaptorSwaps.reply decodeTx seals w.swaps _ = reply at heffect
  cases heffect with
  | kept => exact .inl rfl
  | moved hview hs haccepts =>
    exact .inr ⟨_, t, _, _, _, ⟨status, hstatus, by simpa using hdeep.1, hdeep.2⟩, ht, hs,
      haccepts, rfl⟩

theorem entered_handleEntry {handled : Handled} (h : KeepsTo decodeTx seals w.swaps table)
    (hhandle : handleEntry decodeTx seals turn e w = (handled, w')) :
    ∃ table', KeepsTo decodeTx seals w'.swaps table' ∧ Entered decodeTx turn e table table' := by
  unfold handleEntry at hhandle
  split at hhandle
  · generalize hget : get decodeTx seals turn.swapEnv e.swapId w.swaps = answer at hhandle
    obtain ⟨answer, c⟩ := answer
    have hc := keepsTo_get h hget
    have hsame : w'.swaps = c → ∃ table', KeepsTo decodeTx seals w'.swaps table' ∧
        Entered decodeTx turn e table table' := fun heq => ⟨table, heq ▸ hc, .inl rfl⟩
    split at hhandle
    · rename_i heq
      obtain ⟨-, rfl⟩ := Prod.mk.inj heq
      exact hsame (congrArg (fun result => result.2.swaps) hhandle).symm
    · rename_i heq
      obtain ⟨-, rfl⟩ := Prod.mk.inj heq
      simp only at hhandle
      split_ifs at hhandle
      · exact hsame (congrArg (fun result => result.2.swaps) hhandle).symm
      · exact hsame (congrArg (fun result => result.2.swaps) hhandle).symm
      · split at hhandle
        · exact hsame (congrArg (fun result => result.2.swaps) hhandle).symm
        · rename_i hstatus
          exact entered_applyTransition hc hstatus hhandle
    · rename_i heq
      obtain ⟨-, rfl⟩ := Prod.mk.inj heq
      exact hsame (congrArg (fun result => result.2.swaps) hhandle).symm
  · split at hhandle
    · exact ⟨table, (congrArg (fun result => result.2.swaps) hhandle) ▸ h, .inl rfl⟩
    · rename_i hstatus
      exact entered_applyTransition h hstatus hhandle

theorem swaps_handleNext (queue : List WatchEntry) :
    (handleNext decodeTx seals lib turn e queue w).swaps =
      (handleEntry decodeTx seals turn e w).2.swaps := by
  unfold handleNext
  split
  all_goals
    rename_i hhandle
    rw [hhandle]

/-- A swap that the watcher's entry completes has the transaction of the entry. -/
theorem claimTxid_of_complete {queue : List WatchEntry} {s s' : AdaptorSwap}
    (h : KeepsTo decodeTx seals w.swaps table)
    (hs : found decodeTx seals w.swaps e.swapId = some s)
    (hs' : found decodeTx seals
      (handleNext decodeTx seals lib turn e queue w).swaps e.swapId = some s')
    (hstate : s.state = .pricClaimed) (hstate' : s'.state = .complete)
    (hkind : e.kind = .foreignClaim) : s'.foreignClaimTxid = e.txidHex := by
  rw [swaps_handleNext] at hs'
  obtain ⟨table', h', hentered⟩ := entered_handleEntry h rfl
  have htable := h.table_of_found hs
  have htable' := h'.table_of_found hs'
  rcases hentered with rfl | ⟨height, t, s₀, m, nowSec, -, ht, hs₀, haccepts, rfl⟩
  · obtain rfl := some.inj (htable.symm.trans htable')
    rw [hstate] at hstate'
    cases hstate'
  · rw [update_self] at htable'
    obtain rfl := some.inj htable'
    unfold WatchEntry.transition at ht
    rw [hkind] at ht
    obtain rfl := some.inj ht
    cases haccepts.move with
    | complete => rfl

/-- A funded swap takes a refund. -/
theorem accepts_refund (decodeTx : Text → Option Uint256) {s : AdaptorSwap} {txid : Text}
    (hs : funded s.state = true) (htxid : txid ≠ []) :
    ∃ m, Accepts decodeTx (.setRefunded nullHash txid) s m ∧ Returned txid m := by
  have hcheck : ((Transition.setRefunded nullHash txid).setter decodeTx).check = .ok () := by
    simp [Transition.setter, setRefunded, rejectIf_ok, htxid]
  have hstate : s.state = .btcFunded ∨ s.state = .bothFunded ∨ s.state = .pricClaimed := by
    simpa [funded] using hs
  obtain ⟨m, hm⟩ : ∃ m, (setRefunded nullHash txid).mutate s = .ok m := by
    refine setRefunded_ok ?_ ?_
    · rcases hstate with hstate | hstate | hstate <;> simp [hstate, rank]
    · rcases hstate with hstate | hstate | hstate <;> simp [hstate, rank]
  have haccepts : Accepts decodeTx (.setRefunded nullHash txid) s m := ⟨hcheck, hm⟩
  refine ⟨m, haccepts, ?_⟩
  cases haccepts.move with
  | refunded => exact ⟨rfl, if_neg htxid⟩

/-- The entry of a refund waits until it is confirmed, and then ends the swap. -/
theorem handleEntry_refund {s : AdaptorSwap} (h : KeepsTo decodeTx seals w.swaps table)
    (hc : Loadable w.swaps) (hlocked : turn.swapEnv.locked = false)
    (hreads : turn.swapEnv.reads = true) (hready : Deep turn e → Ready turn.setEnv)
    (hs : found decodeTx seals w.swaps e.swapId = some s) (hfunded : funded s.state = true)
    (hkind : e.kind = .foreignRefund) (htxid : e.txidHex ≠ []) :
    (¬ Confirmed w turn e s ∧ ∃ w', handleEntry decodeTx seals turn e w = (.waits, w') ∧
      KeepsTo decodeTx seals w'.swaps table ∧ Loadable w'.swaps) ∨
    ∃ s', found decodeTx seals (handleEntry decodeTx seals turn e w).2.swaps e.swapId =
      some s' ∧ Returned e.txidHex s' := by
  have hforeign : e.kind.isForeign = true := by rw [hkind]; rfl
  unfold handleEntry
  rw [if_pos hforeign]
  generalize hget : get decodeTx seals turn.swapEnv e.swapId w.swaps = answer
  obtain ⟨answer, c⟩ := answer
  have hkeeps := keepsTo_get h hget
  obtain ⟨-, hc', hsame⟩ := found_get h hc hget
  rcases get_of_loadable h hc hlocked hreads hget with ⟨hnone, -⟩ | ⟨s', hs', rfl⟩
  · rw [hs] at hnone
    cases hnone
  obtain rfl := some.inj (hs.symm.trans hs')
  have hcalm : coolingDown { w with swaps := c } s.foreignChain turn.now =
      coolingDown w s.foreignChain turn.now := rfl
  simp only [hcalm]
  by_cases hconfirmed : Confirmed w turn e s
  · obtain ⟨hclient, hcalm, hdeep⟩ := hconfirmed
    obtain ⟨status, hstatus, hfound, hconf⟩ := hdeep
    have ht : e.transition status.blockHeight = some (.setRefunded nullHash e.txidHex) := by
      simp only [WatchEntry.transition, hkind]
    obtain ⟨m, haccepts, hreturned⟩ := accepts_refund decodeTx hfunded htxid
    have hnot : ¬ (!status.found ∨ status.confirmations < e.minConfirmations) := by
      simp [hfound, Int32.not_lt.mpr hconf]
    have hs' : found decodeTx seals c e.swapId = some s := (hsame.records e.swapId).trans hs
    simp only [hcalm, hclient, hstatus, Bool.not_true, Bool.false_eq_true, if_false,
      applyTransition, if_neg hnot, ht]
    have hcalled : ∀ result c', call decodeTx seals turn.setEnv e.swapId
        (.setRefunded nullHash e.txidHex) c = (result, c') →
        found decodeTx seals c' e.swapId = some { m with updatedTime := turn.setEnv.nowSec } :=
      fun _ _ hcall => found_call hkeeps hc' (hready ⟨status, hstatus, hfound, hconf⟩) hs' haccepts
        hcall
    refine .inr ?_
    split
    · rename_i hcall
      exact ⟨_, hcalled _ _ hcall, hreturned⟩
    · rename_i hcall
      exact ⟨_, hcalled _ _ hcall, hreturned⟩
  · refine .inl ⟨hconfirmed, ?_⟩
    split_ifs with hcool hclient
    · exact ⟨_, rfl, hkeeps, hc'⟩
    · exact ⟨_, rfl, hkeeps, hc'⟩
    · cases hstatus : turn.status with
      | none => exact ⟨_, rfl, hkeeps, hc'⟩
      | some status =>
        have hnot : !status.found ∨ status.confirmations < e.minConfirmations := by
          by_contra hdeep
          rw [not_or, Bool.not_eq_true', Bool.not_eq_false, Int32.not_lt] at hdeep
          exact hconfirmed ⟨by simpa using hclient, by simpa using hcool, status, hstatus, hdeep⟩
        simp only [applyTransition, if_pos hnot]
        exact ⟨_, rfl, hkeeps, hc'⟩

theorem Entered.holdsAt {table' : Table} {swapId : Uint256} {P : AdaptorSwap → Prop}
    (h : Entered decodeTx turn e table table')
    (hmove : ∀ height t s m nowSec, e.swapId = swapId → Deep turn e →
      e.transition height = some t → Accepts decodeTx t s m → P s →
      P { m with updatedTime := nowSec })
    (hs : HoldsAt swapId P table) : HoldsAt swapId P table' := by
  obtain ⟨s, hs, hP⟩ := hs
  rcases h with rfl | ⟨height, t, s₀, m, nowSec, hdeep, ht, hs₀, haccepts, rfl⟩
  · exact ⟨s, hs, hP⟩
  · by_cases hid : e.swapId = swapId
    · subst hid
      obtain rfl := some.inj (hs₀.symm.trans hs)
      exact ⟨_, update_self .., hmove height t s₀ m nowSec rfl hdeep ht haccepts hP⟩
    · exact ⟨s, by rw [update_of_ne (Ne.symm hid), hs], hP⟩

theorem keepsTo_looks {c c' : Wallet} (h : KeepsTo decodeTx seals c table)
    (hlooks : Looks decodeTx seals turn c c') : KeepsTo decodeTx seals c' table := by
  rcases hlooks with ⟨swapId, result, hget⟩ | ⟨result, hlist⟩
  · exact keepsTo_get h hget
  · have hstep : AdaptorSwaps.step decodeTx seals c (.list turn.swapEnv) = c' :=
      congrArg Prod.snd hlist
    obtain ⟨table', heffect, h'⟩ := keepsTo_step h (.list turn.swapEnv)
    rw [hstep] at h'
    cases heffect with
    | kept => exact h'

/-- Apart from entries, the watcher only looks at the swaps. -/
theorem keepsTo_next (h : KeepsTo decodeTx seals w.swaps table)
    (hphase : ∀ e queue, w.phase ≠ .entries (e :: queue)) :
    KeepsTo decodeTx seals (next decodeTx seals lib cfg turn w).swaps table := by
  have hmoves : Moves decodeTx seals lib turn w.phase fun w w' =>
      KeepsTo decodeTx seals w.swaps table → KeepsTo decodeTx seals w'.swaps table :=
    { trans := fun h h' hw => h' (h hw)
      look := fun _ _ hlooks hw => keepsTo_looks hw hlooks
      goto := fun _ _ hw => hw
      clear := fun _ _ hw => hw
      fail := fun _ _ _ hw => hw
      log := fun _ _ _ hw => hw
      attempt := fun _ _ hw => hw
      detect := fun _ _ _ _ hw => hw
      watch := fun _ _ _ _ hw => hw
      add := fun _ _ _ hw => hw }
  exact hmoves.next hphase h

end Records

section Refunds

variable {w : Watcher} {table table' : Table} {swapId : Uint256}
variable {txid : Text} {digest : Digest} {pending : List WatchEntry} {s s' : AdaptorSwap}

theorem txidHex_ne_nil (h : validEntry e = true) : e.txidHex ≠ [] := by
  intro hnil
  simp [validEntry, hnil] at h

theorem Move.funded (h : Move decodeTx s t s') (ht : ¬ Finishes t) (hs : funded s.state = true)
    (nowSec : Int64) : funded { s' with updatedTime := nowSec }.state = true := by
  cases h with
  | complete => exact absurd trivial ht
  | refunded => exact absurd trivial ht
  | abort => exact absurd trivial ht
  | adaptorMaterials hstate => simp [hstate, ChainWatcher.funded] at hs
  | refundTimelocks hstate => simp [hstate, ChainWatcher.funded] at hs
  | preSigned hstate => simp [hstate, ChainWatcher.funded] at hs
  | btcFunded => rfl
  | pricFunded => rfl
  | pricClaimed => rfl
  | coopsignSession => split <;> exact hs
  | pricFundingPlanned _ _ _ _ hm => subst hm; split <;> exact hs
  | _ => exact hs

theorem Move.returned (h : Move decodeTx s t s') (hs : Returned txid s) (nowSec : Int64) :
    Returned txid { s' with updatedTime := nowSec } := by
  have hterminal : s.state.terminal = true := by
    rw [hs.1]
    rfl
  rcases TerminalSwaps.Move.of_terminal h hterminal with
    ⟨secret, rfl⟩ | ⟨ring, ringW, msgHex, pi, hex, rfl⟩
  · cases h <;> exact hs
  · cases h
    exact hs

theorem returned_of_later (h : Later decodeTx s s') (hs : Returned txid s) :
    Returned txid s' := by
  induction h with
  | refl => exact hs
  | tail _ hstep ih =>
    obtain ⟨t, m, nowSec, haccepts, rfl⟩ := hstep
    exact Move.returned haccepts.move ih nowSec

/-- No other entry has the digest of the swap's refund. -/
def OwnDigest (digest : Digest) (swapId : Uint256) : Prop :=
  ∀ swapId' kind, digest swapId' kind = digest swapId .foreignRefund →
    swapId' = swapId ∧ kind = .foreignRefund

theorem mem_putEntry_self (e : WatchEntry) (pending : List WatchEntry) :
    e ∈ putEntry digest e pending := by
  induction pending with
  | nil => exact List.mem_singleton_self e
  | cons p pending ih =>
    unfold putEntry
    split_ifs
    · exact List.mem_cons_self
    · exact List.mem_cons_self
    · exact List.mem_cons_of_mem _ ih

theorem Watched.add (hdigest : OwnDigest digest swapId) (h : Watched pending swapId txid)
    (he : e.swapId = swapId → e.kind = .foreignRefund → e.txidHex = txid)
    (env : StoreConditions) (unixTime : Int64) :
    Watched (add digest env unixTime e pending).2 swapId txid := by
  have hput : ∀ e', e'.swapId = e.swapId → e'.kind = e.kind → e'.txidHex = e.txidHex →
      Watched (putEntry digest e' pending) swapId txid := by
    intro e' hid hkind htxid
    obtain ⟨p, hp, hpid, hpkind, hptxid⟩ := h
    rcases mem_putEntry hp with hp | ⟨hsame, he'⟩
    · exact ⟨p, hp, hpid, hpkind, hptxid⟩
    · rw [hpid, hpkind] at hsame
      obtain ⟨hid', hkind'⟩ := hdigest _ _ hsame
      exact ⟨e', he', hid', hkind', htxid.trans (he (hid ▸ hid') (hkind ▸ hkind'))⟩
  unfold ChainWatcher.add
  split_ifs
  · exact h
  · exact h
  · exact h
  · exact h
  · exact hput _ rfl rfl rfl
  · exact hput e rfl rfl rfl

theorem watched_add_self (unixTime : Int64)
    (hvalid : validEntry ⟨swapId, .foreignRefund, txid, 0, 1, 0⟩ = true) :
    Watched (add digest ⟨false, true, true⟩ unixTime ⟨swapId, .foreignRefund, txid, 0, 1, 0⟩
      pending).2 swapId txid := by
  simp only [ChainWatcher.add, hvalid, Bool.not_true, Bool.false_eq_true, if_false, if_true]
  exact ⟨_, mem_putEntry_self _ pending, rfl, rfl, rfl⟩

theorem Watched.remove (hdigest : OwnDigest digest swapId) (h : Watched pending swapId txid)
    {swapId' : Uint256} {kind : WatchKind} (hne : ¬ (swapId' = swapId ∧ kind = .foreignRefund))
    (env : StoreConditions) : Watched (remove digest env swapId' kind pending).2 swapId txid := by
  obtain ⟨p, hp, hid, hkind, htxid⟩ := h
  rcases remove_cases digest env swapId' kind pending with heq | heq
  · rw [heq]
    exact ⟨p, hp, hid, hkind, htxid⟩
  · rw [heq]
    refine ⟨p, List.mem_filter.mpr ⟨hp, ?_⟩, hid, hkind, htxid⟩
    rw [hid, hkind, decide_eq_true_eq]
    exact fun hsame => hne (hdigest _ _ hsame.symm)

/-- Each refund of the swap has its entry, with the swap still funded, or has ended the swap. -/
def Awaits (swapId : Uint256) (w : Watcher) (table : Table) : Prop :=
  ∀ txid, (swapId, txid) ∈ w.refundTxids → txid ≠ [] ∧
    ((Watched w.pending swapId txid ∧ HoldsAt swapId (fun s => funded s.state = true) table) ∨
      HoldsAt swapId (Returned txid) table)

theorem Awaits.add (hdigest : OwnDigest digest swapId) (h : Awaits swapId w table)
    (he : e.swapId = swapId → e.kind = .foreignRefund →
      ∀ txid, (swapId, txid) ∈ w.refundTxids → e.txidHex = txid)
    (env : StoreConditions) (unixTime : Int64) :
    Awaits swapId { w with pending := (add digest env unixTime e w.pending).2 } table := by
  intro txid hsent
  obtain ⟨hne, ⟨hwatched, hfunded⟩ | hreturned⟩ := h txid hsent
  · refine ⟨hne, .inl ⟨hwatched.add hdigest (fun hid hkind => ?_) env unixTime, hfunded⟩⟩
    exact he hid hkind txid hsent
  · exact ⟨hne, .inr hreturned⟩

theorem loadable_calls {c c' : Wallet} (h : KeepsTo decodeTx seals c table) (hc : Loadable c)
    (hcalls : Calls decodeTx seals c c') : Loadable c' := by
  obtain ⟨events, hevents, rfl⟩ := hcalls
  induction events generalizing c table with
  | nil => exact hc
  | cons event events ih =>
    obtain ⟨table', -, h'⟩ := keepsTo_step h event
    have hfit : RowsFit c event := by
      cases event with
      | restart => exact absurd rfl (hevents _ List.mem_cons_self)
      | _ => trivial
    exact ih h' (loadable_step h hfit hc) fun event hevent =>
      hevents event (List.mem_cons_of_mem _ hevent)

theorem Awaits.swaps {event : AdaptorSwaps.Event ι} {reply : Reply} {view : Table}
    (heffect : Effect decodeTx view table event reply table') (h : Awaits swapId w table)
    (hcalls : ∀ env t txid, event = .call env swapId t → (swapId, txid) ∈ w.refundTxids →
      ¬ Finishes t) : Awaits swapId w table' := by
  intro txid hsent
  obtain ⟨hne, ⟨hwatched, hfunded⟩ | hreturned⟩ := h txid hsent
  · refine ⟨hne, .inl ⟨hwatched, heffect.holdsAt ?_ hfunded⟩⟩
    intro env t s m hevent _ haccepts hs
    exact Move.funded haccepts.move (hcalls env t txid hevent hsent) hs _
  · refine ⟨hne, .inr (heffect.holdsAt ?_ hreturned)⟩
    exact fun env t s m _ _ haccepts hs => Move.returned haccepts.move hs _

/-- The refunds of the swap that are noted have the id of the one that is taken at this step. -/
def OneRefund (turn : Turn ι) (phase : Phase) (swapId : Uint256) (w : Watcher) : Prop :=
  ∀ leg s txid txid', phase.Refunds leg s → s.swapId = swapId → leg ≠ .pric →
    turn.broadcast = some txid → (swapId, txid') ∈ w.refundTxids → txid' = txid

/-- Apart from entries, a refund that is taken gets its entry, and no entry is lost. -/
theorem Awaits.next (hdigest : OwnDigest lib.digest swapId)
    (h : KeepsTo decodeTx seals w.swaps table) (hw : Awaits swapId w table)
    (hturn : Followed decodeTx seals swapId w (.next turn))
    (hphase : ∀ e queue, w.phase ≠ .entries (e :: queue)) :
    Awaits swapId (next decodeTx seals lib cfg turn w) table := by
  have hmoves : Moves decodeTx seals lib turn w.phase fun v v' =>
      Awaits swapId v table ∧ OneRefund turn w.phase swapId v →
      Awaits swapId v' table ∧ OneRefund turn w.phase swapId v' :=
    { trans := fun h h' hw => h' (h hw)
      look := fun _ _ _ hw => hw
      goto := fun _ _ hw => hw
      clear := fun _ _ hw => hw
      fail := fun _ _ _ hw => hw
      log := fun _ _ _ hw => hw
      attempt := fun _ _ hw => hw
      detect := fun {s os} _ _ _ _ hw =>
        ⟨hw.1.add (e := ⟨s.swapId, .foreignClaim, os.spendingTxid, -1, 1, turn.unixTime⟩) hdigest
          (fun _ hkind => by cases hkind) _ _, hw.2⟩
      watch := by
        intro leg s txid hs hleg htxid w' hw'
        by_cases hid : s.swapId = swapId
        · obtain ⟨henv, hvalid, -, s', hs', hfunded⟩ := hturn.1 leg s txid hs hid hleg htxid
          have hone : ∀ txid', (swapId, txid') ∈ (s.swapId, txid) :: w'.refundTxids →
              txid' = txid := by
            intro txid' hsent
            rcases List.mem_cons.mp hsent with heq | hsent
            · exact (Prod.mk.inj heq).2
            · exact hw'.2 leg s txid txid' hs hid hleg htxid hsent
          refine ⟨fun txid' hsent => ?_, ?_⟩
          · obtain rfl := hone txid' hsent
            refine ⟨txidHex_ne_nil hvalid, .inl ⟨?_, s', h.table_of_found hs', hfunded⟩⟩
            simp only [henv, hid]
            exact watched_add_self _ hvalid
          · intro _ _ txid'' txid' _ _ _ htxid'' hsent
            exact (hone txid' hsent).trans (some.inj (htxid.symm.trans htxid''))
        · have hsame : ∀ txid', (swapId, txid') ∈ (s.swapId, txid) :: w'.refundTxids →
              (swapId, txid') ∈ w'.refundTxids := fun txid' hsent =>
            (List.mem_cons.mp hsent).resolve_left fun heq => hid (Prod.mk.inj heq).1.symm
          have hadded := hw'.1.add (e := ⟨s.swapId, .foreignRefund, txid, 0, 1, 0⟩) hdigest
            (fun hid' => absurd hid' hid) turn.addEnv turn.unixTime
          exact ⟨fun txid' hsent => hadded txid' (hsame txid' hsent),
            fun leg s txid txid' hs hid hleg htxid hsent =>
              hw'.2 leg s txid txid' hs hid hleg htxid (hsame txid' hsent)⟩
      add := fun _ _ hkind hw => ⟨hw.1.add hdigest (fun _ h => absurd h hkind) _ _, hw.2⟩ }
  refine (hmoves.next hphase ⟨hw, ?_⟩).1
  intro leg s txid txid' hs hid hleg htxid
  exact (hturn.1 leg s txid hs hid hleg htxid).2.2.1 txid'

theorem pending_handleNext (decodeTx : Text → Option Uint256) (seals : Sealing ι)
    (lib : Library) (turn : Turn ι) (e : WatchEntry) (queue : List WatchEntry) (w : Watcher) :
    (handleNext decodeTx seals lib turn e queue w).pending = w.pending ∨
      (handleNext decodeTx seals lib turn e queue w).pending =
        (remove lib.digest turn.storeEnv e.swapId e.kind w.pending).2 := by
  unfold handleNext
  split
  all_goals
    rename_i hhandle
    have hpending := pending_handleEntry hhandle
  · exact .inl hpending
  · exact .inl hpending
  · rw [← hpending]
    exact .inr rfl

theorem finishes_transition {height : Int32} (ht : e.transition height = some t)
    (hfinishes : Finishes t) :
    e.kind = .foreignClaim ∨ e.kind = .pricRefund ∨ e.kind = .foreignRefund := by
  unfold WatchEntry.transition at ht
  split at ht
  · obtain rfl := some.inj ht
    cases hfinishes
  · obtain ⟨_, -, rfl⟩ := map_eq_some_iff.mp ht
    cases hfinishes
  · obtain ⟨_, -, rfl⟩ := map_eq_some_iff.mp ht
    cases hfinishes
  · exact .inl ‹_›
  · exact .inr (.inl ‹_›)
  · exact .inr (.inr ‹_›)

theorem Awaits.handleNext {queue : List WatchEntry} (hdigest : OwnDigest lib.digest swapId)
    (h : KeepsTo decodeTx seals w.swaps table) (hc : Loadable w.swaps)
    (hw : Awaits swapId w table) (hturn : Followed decodeTx seals swapId w (.next turn))
    (hphase : w.phase = .entries (e :: queue)) :
    ∃ table',
      KeepsTo decodeTx seals (handleNext decodeTx seals lib turn e queue w).swaps table' ∧
      Awaits swapId (handleNext decodeTx seals lib turn e queue w) table' := by
  have hswaps : (ChainWatcher.handleNext decodeTx seals lib turn e queue w).swaps =
      (handleEntry decodeTx seals turn e w).2.swaps := swaps_handleNext queue
  obtain ⟨table', h', hentered⟩ : ∃ table',
      KeepsTo decodeTx seals (handleEntry decodeTx seals turn e w).2.swaps table' ∧
      Entered decodeTx turn e table table' := entered_handleEntry h rfl
  refine ⟨table', hswaps ▸ h', fun txid hsent => ?_⟩
  have hnotes : Notes turn .idle w
      (ChainWatcher.handleNext decodeTx seals lib turn e queue w) := notes_handleNext
  have hsent : (swapId, txid) ∈ w.refundTxids :=
    (hnotes.refunds _ hsent).resolve_right fun ⟨_, _, _, hs, _⟩ => hs
  have hstep := hturn.2 e queue txid hphase
  obtain ⟨hne, ⟨hwatched, hfunded⟩ | hreturned⟩ := hw txid hsent
  · refine ⟨hne, ?_⟩
    by_cases hentry : e.swapId = swapId ∧ e.kind = .foreignRefund
    · -- the entry of the refund itself
      obtain ⟨rfl, hkind⟩ := hentry
      obtain ⟨hhandled, hdeep⟩ := hstep rfl hsent
      obtain ⟨hsame, hlocked, hreads⟩ := hhandled hkind
      obtain ⟨p, hp, hpid, hpkind, rfl⟩ := hwatched
      obtain rfl := hsame p hp hpid hpkind
      obtain ⟨s, hs, hstate⟩ := hfunded
      have hfound : found decodeTx seals w.swaps p.swapId = some s := by
        rw [found_eq_table h hc, hs]
      have hready := fun hconf => (hdeep hconf).2.2 hkind
      rcases handleEntry_refund h hc hlocked hreads hready hfound hstate hkind hne with
        ⟨-, w', hwaits, hkeeps, hc'⟩ | ⟨s', hs', hreturned⟩
      · have hpending := pending_handleEntry hwaits
        rw [hwaits] at h'
        rw [← found_eq_table h' hc', found_eq_table hkeeps hc']
        refine .inl ⟨?_, s, hs, hstate⟩
        simp only [ChainWatcher.handleNext, hwaits, hpending]
        exact ⟨p, hp, rfl, hkind, rfl⟩
      · exact .inr ⟨s', h'.table_of_found hs', hreturned⟩
    · -- another entry, which neither drops the one of the refund nor ends the swap
      refine .inl ⟨?_, hentered.holdsAt ?_ hfunded⟩
      · rcases pending_handleNext decodeTx seals lib turn e queue w with heq | heq
        · exact heq ▸ hwatched
        · rw [heq]
          exact hwatched.remove hdigest hentry _
      · intro height t s m nowSec hid hdeep ht haccepts hs
        refine Move.funded haccepts.move (fun hfinishes => ?_) hs _
        obtain ⟨hclaim, hpric, -⟩ := (hstep hid hsent).2 hdeep
        rcases finishes_transition ht hfinishes with hkind | hkind | hkind
        · exact hclaim hkind
        · exact hpric hkind
        · exact hentry ⟨hid, hkind⟩
  · refine ⟨hne, .inr (hentered.holdsAt ?_ hreturned)⟩
    exact fun height t s m nowSec _ _ _ haccepts hs => Move.returned haccepts.move hs _

/-- The watcher waits for the refunds of the swap, and the records can be read. -/
structure Waiting (decodeTx : Text → Option Uint256) (seals : Sealing ι) (swapId : Uint256)
    (w : Watcher) : Prop where
  loadable : Loadable w.swaps
  awaits : ∃ table, KeepsTo decodeTx seals w.swaps table ∧ Awaits swapId w table

theorem Waiting.step {event : Event ι} (hdigest : OwnDigest lib.digest swapId)
    (hevent : Followed decodeTx seals swapId w event)
    (hw : Waiting decodeTx seals swapId w) :
    Waiting decodeTx seals swapId (step decodeTx seals lib cfg w event) := by
  obtain ⟨hc, table, h, hawaits⟩ := hw
  constructor
  · cases event with
    | swaps event =>
      rw [swaps_step]
      exact loadable_step h hevent.1 hc
    | addWatch => exact hc
    | removeWatch => exact hc
    | next turn => exact loadable_calls h hc (calls_next decodeTx seals lib cfg turn w)
  · cases event with
    | swaps event =>
      obtain ⟨table', heffect, h'⟩ := keepsTo_step h event
      refine ⟨table', by rw [swaps_step]; exact h', ?_⟩
      have hsame := hawaits.swaps heffect hevent.2
      cases event <;> exact hsame
    | addWatch env unixTime e => exact ⟨table, h, hawaits.add hdigest hevent env unixTime⟩
    | removeWatch env swapId' kind =>
      refine ⟨table, h, fun txid hsent => ?_⟩
      obtain ⟨hne, ⟨hwatched, hfunded⟩ | hreturned⟩ := hawaits txid hsent
      · exact ⟨hne, .inl ⟨hwatched.remove hdigest (hevent txid hsent) env, hfunded⟩⟩
      · exact ⟨hne, .inr hreturned⟩
    | next turn =>
      by_cases hphase : ∃ e queue, w.phase = .entries (e :: queue)
      · obtain ⟨e, queue, hphase⟩ := hphase
        have hnext : ChainWatcher.step decodeTx seals lib cfg w (.next turn) =
            handleNext decodeTx seals lib turn e queue w := by
          simp only [ChainWatcher.step, ChainWatcher.next, hphase]
        rw [hnext]
        exact hawaits.handleNext hdigest h hc hevent hphase
      · have hnone := fun e queue hq => hphase ⟨e, queue, hq⟩
        exact ⟨table, keepsTo_next h hnone, hawaits.next hdigest h hevent hnone⟩

/-- A swap that ended with the refund stays so. -/
theorem returned_foldl (lib : Library) (cfg : Config) (events : List (Event ι))
    (h : KeepsTo decodeTx seals w.swaps table) (hs : HoldsAt swapId (Returned txid) table) :
    ∃ table', KeepsTo decodeTx seals
        (events.foldl (step decodeTx seals lib cfg) w).swaps table' ∧
      HoldsAt swapId (Returned txid) table' := by
  induction events generalizing w table with
  | nil => exact ⟨table, h, hs⟩
  | cons event events ih =>
    obtain ⟨calls, hcalls⟩ : ∃ calls : List (AdaptorSwaps.Event ι),
        (step decodeTx seals lib cfg w event).swaps =
          calls.foldl (AdaptorSwaps.step decodeTx seals) w.swaps := by
      cases event with
      | swaps event => exact ⟨[event], swaps_step w event⟩
      | addWatch => exact ⟨[], rfl⟩
      | removeWatch => exact ⟨[], rfl⟩
      | next turn =>
        obtain ⟨calls, -, hcalls⟩ := calls_next decodeTx seals lib cfg turn w
        exact ⟨calls, hcalls⟩
    obtain ⟨table', h', hfollows⟩ := keepsTo_foldl calls h
    obtain ⟨s, hs, hreturned⟩ := hs
    obtain ⟨s', hs', hlater⟩ := hfollows swapId s hs
    rw [← hcalls] at h'
    exact ih h' ⟨s', hs', returned_of_later hlater hreturned⟩

end Refunds

section Runs

theorem waiting_run {decodeTx : Text → Option Uint256} {seals : Sealing ι} {lib : Library}
    {cfg : Config} {events : List (Event ι)} {swapId : Uint256}
    (hdigest : OwnDigest lib.digest swapId)
    (hevents : Always (step decodeTx seals lib cfg) (Followed decodeTx seals swapId)
      newWatcher events) :
    Waiting decodeTx seals swapId (run decodeTx seals lib cfg events) := by
  refine hevents.invariant (fun w event hevent hw => hw.step hdigest hevent) ⟨?_, ?_⟩
  · exact loadable_empty
  · exact ⟨_, keepsTo_empty decodeTx seals, fun _ hsent => by cases hsent⟩

/-- In a run in which the watcher is told of no refund of its own, a swap that it completes for a
spend that it found has no refund of its own for its claim. A refund that is followed has its
entry or has ended the swap, and ends it when it is confirmed. -/
theorem returned_of_told (decodeTx : Text → Option Uint256) (seals : Sealing ι) (lib : Library)
    (cfg : Config) (events : List (Event ι))
    (hevents : Always (step decodeTx seals lib cfg) Told newWatcher events) :
    let last := run decodeTx seals lib cfg events
    (∀ pre turn post e queue s s', events = pre ++ .next turn :: post →
      let w := run decodeTx seals lib cfg pre
      w.phase = .entries (e :: queue) → found decodeTx seals w.swaps e.swapId = some s →
      found decodeTx seals (next decodeTx seals lib cfg turn w).swaps e.swapId = some s' →
      s.role = .bob → s.state = .pricClaimed → s'.state = .complete →
      e.kind = .foreignClaim → (e.swapId, e.txidHex) ∈ w.detected →
      (e.swapId, s'.foreignClaimTxid) ∉ last.refundTxids) ∧
    ∀ swapId, OwnDigest lib.digest swapId →
      Always (step decodeTx seals lib cfg) (Followed decodeTx seals swapId) newWatcher
        events →
      (∀ txid, (swapId, txid) ∈ last.refundTxids → Watched last.pending swapId txid ∨
        ∃ s, found decodeTx seals last.swaps swapId = some s ∧ Returned txid s) ∧
      ∀ pre turn post e queue s, events = pre ++ .next turn :: post →
        let w := run decodeTx seals lib cfg pre
        w.phase = .entries (e :: queue) → e.swapId = swapId → e.kind = .foreignRefund →
        (swapId, e.txidHex) ∈ w.refundTxids → found decodeTx seals w.swaps swapId = some s →
        Confirmed w turn e s →
        ∃ s', found decodeTx seals last.swaps swapId = some s' ∧ Returned e.txidHex s' := by
  have hnext : ∀ turn w e queue, w.phase = .entries (e :: queue) →
      next decodeTx seals lib cfg turn w = handleNext decodeTx seals lib turn e queue w := by
    intro turn w e queue hphase
    rw [next, hphase]
  have hkeeps : ∀ pre, ∃ table,
      KeepsTo decodeTx seals (run decodeTx seals lib cfg pre).swaps table := by
    intro pre
    obtain ⟨calls, hcalls⟩ := swaps_run decodeTx seals lib cfg pre
    exact hcalls ▸ keepsTo_run decodeTx seals calls
  have hsplit : ∀ pre turn post, run decodeTx seals lib cfg (pre ++ .next turn :: post) =
      post.foldl (step decodeTx seals lib cfg)
        (next decodeTx seals lib cfg turn (run decodeTx seals lib cfg pre)) :=
    fun _ _ _ => List.foldl_append
  intro last
  constructor
  · rintro pre turn post e queue s s' rfl w hphase hs hs' - hstate hstate' hkind hdetected
    have hend : Apart last :=
      hevents.invariant (fun _ _ h hw => Apart.step hw h) fun _ hp => by cases hp
    have hgrows : w.detected ⊆ last.detected := by
      have hlast : last = (Event.next turn :: post).foldl (step decodeTx seals lib cfg) w :=
        List.foldl_append
      rw [hlast]
      exact detected_foldl _ _
    obtain ⟨table, h⟩ := hkeeps pre
    rw [hnext turn w e queue hphase] at hs'
    rw [claimTxid_of_complete h hs hs' hstate hstate' hkind]
    exact hend _ (hgrows hdetected)
  · intro swapId hdigest hfollowed
    obtain ⟨hloadable, table, h, hawaits⟩ := waiting_run hdigest hfollowed
    refine ⟨fun txid hsent => ?_, ?_⟩
    · rw [found_eq_table h hloadable]
      exact (hawaits txid hsent).2.imp And.left id
    · rintro pre turn post e queue s rfl w hphase rfl hkind hsent hs hconfirmed
      obtain ⟨hpre, hstep, -⟩ := Always.append.mp hfollowed
      obtain ⟨hc, before, hbefore, hwaits⟩ := waiting_run hdigest hpre
      obtain ⟨hopen, hdeep⟩ := hstep.2 e queue _ hphase rfl hsent
      obtain ⟨-, hlocked, hreads⟩ := hopen hkind
      -- the refund is recorded at this step, or was before
      have hafter : ∃ table',
          KeepsTo decodeTx seals (next decodeTx seals lib cfg turn w).swaps table' ∧
          HoldsAt e.swapId (Returned e.txidHex) table' := by
        obtain ⟨htxid, ⟨-, s₀, hs₀, hfunded⟩ | hreturned⟩ := hwaits _ hsent
        · obtain rfl := some.inj (hs₀.symm.trans (hbefore.table_of_found hs))
          obtain ⟨s', hs', hreturned⟩ := (handleEntry_refund hbefore hc hlocked hreads
            (fun hconf => (hdeep hconf).2.2 hkind) hs hfunded hkind htxid).resolve_left
              fun hwaits => hwaits.1 hconfirmed
          rw [← swaps_handleNext queue, ← hnext turn w e queue hphase] at hs'
          obtain ⟨table', h'⟩ := hkeeps (pre ++ [.next turn])
          rw [hsplit] at h'
          exact ⟨table', h', s', h'.table_of_found hs', hreturned⟩
        · exact returned_foldl lib cfg [.next turn] hbefore hreturned
      obtain ⟨table', h', hreturned⟩ := hafter
      obtain ⟨table'', h'', hreturned⟩ := returned_foldl lib cfg post h' hreturned
      rw [← hsplit] at h''
      rw [found_eq_table h'' hloadable]
      exact hreturned

end Runs

section Sample

/-- A library in which every refund of the script can be signed. -/
def spendLibrary : Library :=
  { sampleLibrary with
    digest := fun swapId kind =>
      if swapId = sampleId then sampleLibrary.digest swapId kind else 0
    swapPub := some (.replicate 33 2)
    witnessScript := fun dest => some dest
    signRefund := fun _ _ _ _ => some [1] }

def spendConfig : Config := ⟨true, [1]⟩

def refundTxid : Text := List.replicate 64 52

/-- A step of a tick at which the refund is due and is taken. -/
def refundTurn : Turn Unit :=
  { quietTurn with
    tip := some 20, order := [sampleId], outspend := some ⟨false, []⟩
    broadcast := some refundTxid }

/-- A step at which the refund is seen as a spend, without a confirmation. -/
def spentTurn : Turn Unit :=
  { refundTurn with outspend := some ⟨true, refundTxid⟩, status := some ⟨true, 0, 0⟩ }

def spendRun (events : List (Event Unit)) : Watcher :=
  run sampleDecode plainSealing spendLibrary spendConfig events

/-- A swap whose claim was published, and a tick that refunds it. -/
def refundPath : List (Event Unit) :=
  (samplePath .bob ltc (some sampleSecret) ++ [sampleCall (.setPricClaimed sampleTxid)]).map
    .swaps ++ List.replicate 10 (.next refundTurn)

/-- A tick later, the refund was taken for a claim. -/
def spendPath : List (Event Unit) :=
  refundPath ++ List.replicate 11 (.next spentTurn) ++ [.next quietTurn]

/-- The refund that the wallet has broadcast completes the swap. -/
theorem completed_by_refund :
    (found sampleDecode plainSealing (spendRun spendPath).swaps sampleId).map
      (fun s => (s.role, s.state)) = some (.bob, .pricClaimed) ∧
    (sampleId, refundTxid) ∈ (spendRun spendPath).detected ∧
    (sampleId, refundTxid) ∈ (spendRun spendPath).refundTxids ∧
    (found sampleDecode plainSealing
      (spendRun (spendPath ++ [.next confirmedTurn, .next confirmedTurn])).swaps sampleId).map
        (fun s => (s.state, s.foreignClaimTxid)) = some (.complete, refundTxid) ∧
    (spendRun (spendPath ++ [.next confirmedTurn, .next confirmedTurn])).pending = [] := by
  exact ⟨by decide +kernel, by decide +kernel, by decide +kernel, by decide +kernel,
    by decide +kernel⟩

theorem ownDigest_spendLibrary : OwnDigest spendLibrary.digest sampleId := by
  intro swapId' kind h
  by_cases hid : swapId' = sampleId
  · refine ⟨hid, ?_⟩
    simp only [spendLibrary, hid, if_true] at h
    cases kind <;> simp [sampleLibrary] at h ⊢
  · simp [spendLibrary, hid, sampleLibrary] at h

/-- The wallet can be used at the step. -/
def usable (turn : Turn Unit) : Bool :=
  !turn.swapEnv.locked && turn.swapEnv.reads && !turn.setEnv.locked && turn.setEnv.reads &&
    turn.setEnv.seed.isSome && turn.setEnv.writes && !turn.addEnv.locked && turn.addEnv.opens &&
    turn.addEnv.writes

/-- No entry but that of a refund is handled. -/
def alone (w : Watcher) : Bool :=
  match w.phase with
  | .entries (e :: _) => w.pending = [e] && e.kind = .foreignRefund
  | _ => true

/-- Nothing was found yet, the chain tells of no spend, the one refund is that of a funded swap,
and the wallet can be used. -/
def unspent (w : Watcher) : Event Unit → Bool
  | .swaps .restart => false
  | .swaps _ => w.refundTxids.isEmpty
  | .next turn =>
    w.detected.isEmpty && turn.outspend.all (fun os => !os.spent) && usable turn && alone w &&
      turn.broadcast.all (· = refundTxid) && w.refundTxids.all (·.2 = refundTxid) &&
      (found sampleDecode plainSealing w.swaps sampleId).any (funded ·.state)
  | _ => false

theorem told_of_unspent (w : Watcher) (event : Event Unit)
    (h : unspent w event = true) : Told w event := by
  cases event with
  | next turn =>
    simp only [unspent, Bool.and_eq_true, List.isEmpty_iff] at h
    obtain ⟨⟨⟨⟨⟨⟨hdetected, hunspent⟩, -⟩, -⟩, -⟩, -⟩, -⟩ := h
    refine ⟨fun s os _ hos hspent => ?_, fun leg s txid _ _ _ => ?_⟩
    · rw [hos] at hunspent
      simp [hspent] at hunspent
    · rw [hdetected]
      exact List.not_mem_nil
  | _ => trivial

theorem followed_of_unspent (w : Watcher) (event : Event Unit)
    (h : unspent w event = true) : Followed sampleDecode plainSealing sampleId w event := by
  cases event with
  | swaps event =>
    cases event with
    | restart => cases h
    | _ =>
      refine ⟨trivial, fun _ _ txid _ hsent => ?_⟩
      rw [List.isEmpty_iff.mp h] at hsent
      cases hsent
  | addWatch => cases h
  | removeWatch => cases h
  | next turn =>
    simp only [unspent, Bool.and_eq_true, usable, Bool.not_eq_true'] at h
    obtain ⟨⟨⟨⟨⟨-, husable⟩, halone⟩, hbroadcast⟩, hrefunds⟩, hfunded⟩ := h
    obtain ⟨⟨⟨⟨⟨⟨⟨⟨hlocked, hreads⟩, hsetLocked⟩, hsetReads⟩, hseed⟩, hwrites⟩, hadd⟩, hopens⟩,
      haddWrites⟩ := husable
    constructor
    · intro leg s txid _ _ _ htxid
      obtain rfl : txid = refundTxid := by simpa [htxid] using hbroadcast
      refine ⟨?_, by decide, fun txid' hsent => ?_, by simpa [any_eq_true] using hfunded⟩
      · calc turn.addEnv = ⟨turn.addEnv.locked, turn.addEnv.opens, turn.addEnv.writes⟩ := rfl
          _ = ⟨false, true, true⟩ := by rw [hadd, hopens, haddWrites]
      · simpa using List.all_eq_true.mp hrefunds _ hsent
    · intro e queue txid hphase _ _
      simp only [alone, hphase, Bool.and_eq_true, decide_eq_true_eq] at halone
      obtain ⟨hpending, hkind⟩ := halone
      refine ⟨fun _ => ⟨fun p hp _ _ => ?_, hlocked, hreads⟩, fun _ => ?_⟩
      · rw [hpending] at hp
        exact List.mem_singleton.mp hp
      · rw [hkind]
        exact ⟨nofun, nofun, fun _ =>
          ⟨hsetLocked, hsetReads, isSome_iff_ne_none.mp hseed, hwrites⟩⟩

/-- The path of a refund that is confirmed a tick later. -/
def returnPath : List (Event Unit) := refundPath ++ [.next quietTurn]

theorem returned_of_told_refund :
    ∃ s, found sampleDecode plainSealing
        (spendRun (returnPath ++ [.next confirmedTurn])).swaps sampleId = some s ∧
      s.state = .refunded ∧ s.foreignRefundTxid = refundTxid := by
  have hunspent : Always (step sampleDecode plainSealing spendLibrary spendConfig)
      (fun w event => unspent w event = true) newWatcher
      (returnPath ++ [.next confirmedTurn]) := by
    decide +kernel
  have hpending : (spendRun returnPath).pending =
      [⟨sampleId, .foreignRefund, refundTxid, 0, 1, 1⟩] := by
    decide +kernel
  have hphase : (spendRun returnPath).phase = .entries (spendRun returnPath).pending := rfl
  rw [hpending] at hphase
  have hview : (found sampleDecode plainSealing (spendRun returnPath).swaps sampleId).map
      AdaptorSwap.foreignChain = some ltc := by
    decide +kernel
  obtain ⟨s, hs, hchain⟩ := map_eq_some_iff.mp hview
  have hrefund : (sampleId, refundTxid) ∈ (spendRun returnPath).refundTxids := by decide +kernel
  have hcalm : coolingDown (spendRun returnPath) ltc 0 = false := by decide +kernel
  have hconfirmed : Confirmed (spendRun returnPath) confirmedTurn
      ⟨sampleId, .foreignRefund, refundTxid, 0, 1, 1⟩ s :=
    ⟨rfl, hchain ▸ hcalm, ⟨true, 1, 5⟩, rfl, rfl, Int32.le_refl _⟩
  obtain ⟨-, hreturned⟩ := (returned_of_told sampleDecode plainSealing spendLibrary spendConfig _
    (hunspent.imp told_of_unspent)).2 sampleId ownDigest_spendLibrary
      (hunspent.imp followed_of_unspent)
  exact hreturned returnPath confirmedTurn [] _ [] s rfl hphase rfl rfl hrefund hs hconfirmed

end Sample

end Pricoin.SpendDetection
