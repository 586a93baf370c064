import Pricoin.ConnectDisconnect
import Pricoin.Patches

/-!
Replaying a block after an interrupted flush. The replay spends the outpoint of
every input, also those that only mark ring members, and adds every output, without
looking at what is there. It agrees with the connection of the block on every
partly flushed view exactly when each marked coin is spent directly later in the
block.
-/
namespace Pricoin.Rollforward

open Checks TaggedSets KeyImageFile KeyImageStore Transactions Coins TxChecks BlockConnection
open List Option
open Patches ConnectDisconnect

variable {nHeight : ℕ} {txs : List Transaction} {o : OutPoint} {first : Bool} {p p' : Progress}

section Model

variable (crypto : Crypto)

def rollforwardTx (nHeight : ℕ) (tx : Transaction) (view : CoinsView) : Option CoinsView :=
  let view := if tx.isCoinBase then view else tx.prevouts.foldl CoinsView.spendCoin view
  addCoins crypto tx nHeight true view

/-- The loop of `RollforwardBlock`. -/
def rollforwardTxs (nHeight : ℕ) : List Transaction → CoinsView → Option CoinsView
  | [], view => some view
  | tx :: txs, view => do
    let view ← rollforwardTx crypto nHeight tx view
    rollforwardTxs nHeight txs view

def rollforwardBlock (block : Block) (pindex : BlockIndex) (view : CoinsView) : Option CoinsView :=
  rollforwardTxs crypto pindex.nHeight block.vtx view

/-- The outpoints that a replay spends. -/
def replayedPrevouts (tx : Transaction) : List OutPoint := if tx.isCoinBase then [] else tx.prevouts

/-- What a transaction writes when it spends the given outpoints. -/
def txPatch (nHeight : ℕ) (spent : Transaction → List OutPoint) (tx : Transaction) :
    Patch OutPoint (Option Coin) := fun o =>
  match createdCoins crypto tx nHeight o with
  | some c => some (some c)
  | none => if o ∈ spent tx then some none else none

def connectPatches (nHeight : ℕ) (txs : List Transaction) : List (Patch OutPoint (Option Coin)) :=
  txs.map (txPatch crypto nHeight directPrevouts)

def replayPatches (nHeight : ℕ) (txs : List Transaction) : List (Patch OutPoint (Option Coin)) :=
  txs.map (txPatch crypto nHeight replayedPrevouts)

/-- Some of the coins that the block writes and erases have reached the view. -/
def PartlyFlushed (block : Block) (pindex : BlockIndex) (view flushed : CoinsView) : Prop :=
  Patch.PartlyApplied (connectPatches crypto pindex.nHeight block.vtx) view flushed

/-- Every coin that a ring transaction marks is spent directly by a later transaction. -/
def MarkersSpent : List Transaction → Prop
  | [] => True
  | tx :: txs => (tx.isV4Ring = true → ∀ o ∈ replayedPrevouts tx, ∃ d ∈ txs, o ∈ directPrevouts d) ∧
    MarkersSpent txs

end Model

section Patches

variable {crypto : Crypto}

theorem apply_txPatch (nHeight : ℕ) (spent : Transaction → List OutPoint) (tx : Transaction)
    (view : CoinsView) :
    (txPatch crypto nHeight spent tx).apply view =
      overlay (createdCoins crypto tx nHeight) (erase (spent tx) view) := by
  funext o
  unfold Patch.apply txPatch overlay erase
  cases createdCoins crypto tx nHeight o with
  | some c => rfl
  | none => by_cases ho : o ∈ spent tx <;> simp [ho]

theorem foldl_spendCoin (os : List OutPoint) (view : CoinsView) :
    os.foldl CoinsView.spendCoin view = erase os view := by
  induction os generalizing view with
  | nil => rw [foldl_nil, erase_nil]
  | cons o os ih => rw [foldl_cons, ih, erase_cons]

theorem rollforwardTx_eq (nHeight : ℕ) (tx : Transaction) (view : CoinsView) :
    rollforwardTx crypto nHeight tx view =
      some ((txPatch crypto nHeight replayedPrevouts tx).apply view) := by
  rw [apply_txPatch, rollforwardTx, replayedPrevouts]
  cases hcb : tx.isCoinBase with
  | true =>
    simp only [if_true, erase_nil]
    exact addCoinsFrom_of_free (.inl rfl)
  | false =>
    simp only [Bool.false_eq_true, if_false, foldl_spendCoin]
    exact addCoinsFrom_of_free (.inl rfl)

/-- A replay always succeeds, and the last write to each outpoint is what it leaves. -/
theorem rollforwardTxs_eq (nHeight : ℕ) (txs : List Transaction) (view : CoinsView) :
    rollforwardTxs crypto nHeight txs view =
      some ((Patch.last (replayPatches crypto nHeight txs)).apply view) := by
  rw [← Patch.applyAll_eq]
  induction txs generalizing view with
  | nil => rfl
  | cons tx txs ih =>
    rw [rollforwardTxs, rollforwardTx_eq, bind_eq_bind, bind_some, ih]
    rfl

theorem directPrevouts_subset (tx : Transaction) : directPrevouts tx ⊆ replayedPrevouts tx := by
  unfold directPrevouts replayedPrevouts
  cases tx.isCoinBase <;> cases tx.isV4Ring <;> simp

theorem last_replayPatches_none (h : Patch.last (replayPatches crypto nHeight txs) o = none) :
    Patch.last (connectPatches crypto nHeight txs) o = none := by
  rw [Patch.last_eq_none] at h ⊢
  simp only [replayPatches, connectPatches, List.forall_mem_map] at h ⊢
  intro tx htx
  have hnone := h tx htx
  unfold txPatch at hnone ⊢
  split at hnone
  · contradiction
  · have hout : o ∉ replayedPrevouts tx := fun ho => by simp [ho] at hnone
    exact if_neg fun ho => hout (directPrevouts_subset tx ho)

/-- Where marked coins are spent later, the last write of a replay is one of the connection. -/
theorem last_connectPatches_of_markersSpent {v : Option Coin} (hspent : MarkersSpent txs)
    (h : Patch.last (replayPatches crypto nHeight txs) o = some v) :
    Patch.last (connectPatches crypto nHeight txs) o = some v := by
  induction txs with
  | nil => simp [replayPatches, Patch.last] at h
  | cons tx txs ih =>
    obtain ⟨hmarked, hrest⟩ := hspent
    change (Patch.last (replayPatches crypto nHeight txs) o).or
      (txPatch crypto nHeight replayedPrevouts tx o) = some v at h
    change (Patch.last (connectPatches crypto nHeight txs) o).or
      (txPatch crypto nHeight directPrevouts tx o) = some v
    rcases or_eq_some_iff.mp h with h | ⟨hlater, h⟩
    · rw [ih hrest h, some_or]
    · rw [last_replayPatches_none hlater, none_or]
      unfold txPatch at h ⊢
      split at h
      · exact h
      · by_cases ho : o ∈ replayedPrevouts tx
        · rw [if_pos ho] at h
          have hdirect : o ∈ directPrevouts tx := by
            unfold replayedPrevouts at ho
            unfold directPrevouts
            cases hcb : tx.isCoinBase with
            | true => simp [hcb] at ho
            | false =>
              cases hring : tx.isV4Ring with
              | false => simpa [hcb] using ho
              | true =>
                -- a later direct spend would have been the last write
                obtain ⟨d, hd, hod⟩ := hmarked hring o (by simpa [replayedPrevouts, hcb] using ho)
                have hnone := Patch.last_eq_none.mp hlater
                  (txPatch crypto nHeight replayedPrevouts d) (mem_map_of_mem hd)
                unfold txPatch at hnone
                split at hnone
                · contradiction
                · simp [directPrevouts_subset d hod] at hnone
          rw [if_pos hdirect]
          exact h
        · rw [if_neg ho] at h
          contradiction

end Patches

section Replay

variable {rules : Rules} {committed : Finset Point} {pindex : BlockIndex}

theorem connectTxs_view (h : connectTxs rules committed pindex first txs p = .ok p') :
    p'.view = (Patch.last (connectPatches rules.crypto pindex.nHeight txs)).apply p.view := by
  rw [← Patch.applyAll_eq]
  have hinv := connectTxs_invariant
    (fun rest q => Patch.applyAll (connectPatches rules.crypto pindex.nHeight rest) q.view =
      Patch.applyAll (connectPatches rules.crypto pindex.nHeight txs) p.view)
    (fun first tx rest q q' hq hinv => by
      obtain ⟨undo, hupdate, -⟩ := hq.update
      rw [(updateCoins_some hupdate).1, ← apply_txPatch]
      exact hinv) h rfl
  exact hinv

/-- A coin that no later transaction of the block spends directly stays, and none is put in its
place. -/
theorem connectTxs_keeps (h : connectTxs rules committed pindex first txs p = .ok p')
    (htxs : ∀ tx ∈ txs, tx.isCoinBase = false) (hpresent : p.view o ≠ none)
    (hkept : ∀ tx ∈ txs, o ∉ directPrevouts tx) :
    p'.view o = p.view o ∧
    ∀ tx ∈ txs, createdCoins rules.crypto tx pindex.nHeight o = none := by
  induction txs generalizing first p with
  | nil =>
    simp only [connectTxs, Except.ok.injEq] at h
    simp [h]
  | cons tx txs ih =>
    simp only [connectTxs, bind_ok] at h
    obtain ⟨q, hq, hrest⟩ := h
    obtain ⟨undo, hupdate, -⟩ := (connectTx_ok hq).update
    obtain ⟨hview, hfree, -⟩ := updateCoins_some hupdate
    have hsame : erase (directPrevouts tx) p.view o = p.view o :=
      if_neg (hkept tx mem_cons_self)
    have hcreated : createdCoins rules.crypto tx pindex.nHeight o = none := by
      by_contra hne
      exact hpresent (hsame ▸ hfree (htxs tx mem_cons_self) o hne)
    have hstep : q.view o = p.view o := by
      rw [hview, overlay, hcreated, hsame]
      rfl
    obtain ⟨hend, hlater⟩ := ih hrest (fun t ht => htxs t (mem_cons_of_mem _ ht))
      (hstep ▸ hpresent) (fun t ht => hkept t (mem_cons_of_mem _ ht))
    exact ⟨hend.trans hstep, forall_mem_cons.mpr ⟨hcreated, hlater⟩⟩

theorem last_replayPatches_erased {crypto : Crypto}
    (h : ∀ tx ∈ txs, createdCoins crypto tx nHeight o = none) :
    Patch.last (replayPatches crypto nHeight txs) o = none ∨
    Patch.last (replayPatches crypto nHeight txs) o = some none := by
  induction txs with
  | nil => exact .inl rfl
  | cons tx txs ih =>
    obtain ⟨htx, hrest⟩ := forall_mem_cons.mp h
    change (Patch.last (replayPatches crypto nHeight txs) o).or
      (txPatch crypto nHeight replayedPrevouts tx o) = none ∨
      (Patch.last (replayPatches crypto nHeight txs) o).or
      (txPatch crypto nHeight replayedPrevouts tx o) = some none
    rcases ih hrest with hlater | hlater
    · rw [hlater, none_or, txPatch, htx]
      dsimp only
      split
      · exact .inr rfl
      · exact .inl rfl
    · exact .inr (by rw [hlater, some_or])

/-- A marked coin that is not spent directly later survives the connection, and a replay
erases it. -/
theorem exists_lost_of_not_markersSpent (h : connectTxs rules committed pindex first txs p = .ok p')
    (htxs : ∀ tx ∈ txs, TxSound tx ∧ tx.isCoinBase = false) (hnot : ¬ MarkersSpent txs) :
    ∃ o, p'.view o ≠ none ∧
      Patch.last (replayPatches rules.crypto pindex.nHeight txs) o = some none := by
  induction txs generalizing first p with
  | nil => exact absurd trivial hnot
  | cons tx txs ih =>
    obtain ⟨⟨hsound, hcb⟩, htxs'⟩ := forall_mem_cons.mp htxs
    simp only [connectTxs, bind_ok] at h
    obtain ⟨q, hq, hrest⟩ := h
    have hcons (o : OutPoint) :
      Patch.last (replayPatches rules.crypto pindex.nHeight (tx :: txs)) o =
      (Patch.last (replayPatches rules.crypto pindex.nHeight txs) o).or
        (txPatch rules.crypto pindex.nHeight replayedPrevouts tx o) := rfl
    by_cases hlater : MarkersSpent txs
    · have hmarked : ∃ o ∈ replayedPrevouts tx, tx.isV4Ring = true ∧
          ∀ d ∈ txs, o ∉ directPrevouts d := by
        by_contra hnone
        refine hnot ⟨fun hring o ho => ?_, hlater⟩
        by_contra hno
        exact hnone ⟨o, ho, hring, fun d hd hod => hno ⟨d, hd, hod⟩⟩
      obtain ⟨o, ho, hring, hkept⟩ := hmarked
      obtain ⟨⟨undo, hupdate, -⟩, -, -, hcontext⟩ := connectTx_ok hq
      obtain ⟨fee, hfee⟩ := hcontext hcb (hsound.version hcb)
      have hpresent : p.view o ≠ none := by
        simp only [replayedPrevouts, hcb, Bool.false_eq_true, if_false] at ho
        exact (verifyConfidentialContextual_ok hfee).present hcb o ho
      have hdirect : directPrevouts tx = [] := by simp [directPrevouts, hring]
      obtain ⟨hview, hfree, -⟩ := updateCoins_some hupdate
      rw [hdirect, erase_nil] at hview hfree
      have hcreated : createdCoins rules.crypto tx pindex.nHeight o = none := by
        by_contra hne
        exact hpresent (hfree hcb o hne)
      have hstep : q.view o = p.view o := by
        rw [hview, overlay, hcreated]
        rfl
      obtain ⟨hend, hnone⟩ := connectTxs_keeps hrest (fun t ht => (htxs' t ht).2)
        (hstep ▸ hpresent) hkept
      refine ⟨o, by rwa [hend, hstep], ?_⟩
      rw [hcons]
      rcases last_replayPatches_erased hnone with herased | herased
      · rw [herased, none_or, txPatch, hcreated]
        exact if_pos ho
      · rw [herased, some_or]
    · obtain ⟨o, hview, hlast⟩ := ih hrest htxs' hlater
      exact ⟨o, hview, by rw [hcons, hlast, some_or]⟩

/-- Replaying a connected block on any partly flushed view gives the coins of the connection
exactly when every coin that a ring transaction marks is spent directly later in the block. -/
theorem rollforwardBlock_eq_iff {block : Block} {tip : CoinsTip} {store : Store} {c : Connected}
    {flushed : CoinsView} (h : connectBlock rules false block pindex tip store = .ok c)
    (hgenesis : pindex.hash ≠ rules.hashGenesisBlock)
    (hflushed : PartlyFlushed rules.crypto block pindex tip.coins flushed) :
    rollforwardBlock rules.crypto block pindex flushed = some c.tip.coins ↔
      MarkersSpent block.vtx := by
  rcases connectBlock_ok h with ⟨hhash, -⟩ | ⟨p, hconn⟩
  · exact absurd hhash hgenesis
  obtain ⟨cb, txs, hvtx, hcb, htxs⟩ := hconn.checked.coinbase
  have hsound := hconn.checked.sound
  obtain rfl := hconn.result
  rw [rollforwardBlock, rollforwardTxs_eq, some.injEq]
  constructor
  · intro heq
    by_contra hnot
    have hloop := hconn.loop
    rw [hvtx] at hnot hsound hloop heq
    simp only [connectTxs, bind_ok] at hloop
    obtain ⟨q, -, hrest⟩ := hloop
    -- the coinbase marks nothing
    have hplain : cb.isV4Ring = false := by
      simp [Transaction.isV4Ring, (hsound cb mem_cons_self).not_v4_of_coinbase hcb]
    have hrestNot : ¬ MarkersSpent txs := fun hspent => hnot ⟨by simp [hplain], hspent⟩
    obtain ⟨o, hview, hlast⟩ := exists_lost_of_not_markersSpent hrest
      (fun tx htx => ⟨hsound tx (mem_cons_of_mem _ htx), htxs tx htx⟩) hrestNot
    have hlost : (Patch.last (replayPatches rules.crypto pindex.nHeight (cb :: txs))).apply
        flushed o = none := by
      change ((Patch.last (replayPatches rules.crypto pindex.nHeight txs) o).or _).getD _ = none
      rw [hlast]
      rfl
    rw [heq] at hlost
    exact hview hlost
  · intro hspent
    funext o
    change _ = p.view o
    rw [connectTxs_view hconn.loop]
    unfold Patch.apply
    cases hlast : Patch.last (replayPatches rules.crypto pindex.nHeight block.vtx) o with
    | some v =>
      rw [last_connectPatches_of_markersSpent hspent hlast]
      rfl
    | none =>
      have hnone := last_replayPatches_none hlast
      rw [hnone]
      exact Patch.PartlyApplied.eq_of_last_none hflushed hnone

end Replay

section Sample

/-- A block whose only spend is by ring, of the coin of the sample view. -/
def sampleMarkedBlock : Block :=
  sampleBlock 1 [sampleCoinbase [1, 0], sampleRing samplePoint 1 3]

/-- The replay erases the marked coin, which the connection keeps. -/
theorem rollforwardBlock_loses_marked_coin :
    ∃ c view, connectBlock sampleRules false sampleMarkedBlock sampleIndex
        ⟨sampleView, sampleHash 0⟩ ⟨.empty, none, true⟩ = .ok c ∧
      rollforwardBlock sampleCrypto sampleMarkedBlock sampleIndex sampleView = some view ∧
      c.tip.coins samplePoint.outPoint = sampleView samplePoint.outPoint ∧
      sampleView samplePoint.outPoint ≠ none ∧ view samplePoint.outPoint = none := by
  have hrun : succeeds
      (fun c => c.tip.coins samplePoint.outPoint = sampleView samplePoint.outPoint)
      (connectBlock sampleRules false sampleMarkedBlock sampleIndex
        ⟨sampleView, sampleHash 0⟩ ⟨.empty, none, true⟩) = true := by
    decide +kernel
  obtain ⟨c, hc, hkept⟩ := succeeds_iff.mp hrun
  have hreplay : (rollforwardBlock sampleCrypto sampleMarkedBlock sampleIndex sampleView).any
      (fun view => (view samplePoint.outPoint).isNone) = true := by
    decide +kernel
  obtain ⟨view, hview, hnone⟩ := (any_eq_true _ _).mp hreplay
  exact ⟨c, view, hc, hview, of_decide_eq_true hkept, by decide, isNone_iff_eq_none.mp hnone⟩

/-- A coin marked by ring and spent directly later in the block. -/
def sampleMarkedThenSpent : Block :=
  sampleBlock 1 [sampleCoinbase [1, 0], sampleRing samplePoint 1 3, sampleDirect samplePoint 2]

/-- The flush was interrupted after the coin was erased and before any output was written. -/
theorem rollforwardBlock_eq_iff_sample :
    ∃ c, connectBlock sampleRules false sampleMarkedThenSpent sampleIndex
        ⟨sampleView, sampleHash 0⟩ ⟨.empty, none, true⟩ = .ok c ∧
      MarkersSpent sampleMarkedThenSpent.vtx ∧
      rollforwardBlock sampleCrypto sampleMarkedThenSpent sampleIndex (fun _ => none) =
        some c.tip.coins := by
  have hrun : succeeds (fun _ => True) (connectBlock sampleRules false sampleMarkedThenSpent
      sampleIndex ⟨sampleView, sampleHash 0⟩ ⟨.empty, none, true⟩) = true := by
    decide +kernel
  obtain ⟨c, hc, -⟩ := succeeds_iff.mp hrun
  have hflushed : PartlyFlushed sampleCrypto sampleMarkedThenSpent sampleIndex sampleView
      (fun _ => none) := by
    intro o
    by_cases ho : o = samplePoint.outPoint
    · subst ho
      exact .inr ⟨_, mem_map_of_mem (mem_cons_of_mem _ (mem_cons_of_mem _
        mem_cons_self)), by decide +kernel⟩
    · refine .inl ?_
      rw [sampleView, Function.update_of_ne ho]
  have hspent : MarkersSpent sampleMarkedThenSpent.vtx := by
    refine ⟨by decide, fun _ o ho => ?_, by decide, trivial⟩
    exact ⟨sampleDirect samplePoint 2, mem_cons_self, ho⟩
  exact ⟨c, hc, hspent, (rollforwardBlock_eq_iff hc (by decide +kernel) hflushed).mpr hspent⟩

end Sample

end Pricoin.Rollforward
