import Pricoin.ActiveChain
import Pricoin.Rollforward

/-!
What happens to a coin when the tip moves. Connecting a block takes away the coins
that its direct inputs spend, and may put a coinbase output over another coin.
Disconnecting it takes away the coins of its outputs, and where it is clean it only
puts coins back that were gone. Every other coin stays as it is.
-/
namespace Pricoin.CoinsKept

open Checks KeyImageFile Transactions Coins TxChecks BlockConnection UndoCodec BlockDisconnection
open List Option
open ActiveChain Rollforward

variable {rules : Rules} {keys : PubKeys} {tx : Transaction} {o : OutPoint} {nHeight : ℕ} {c : Coin}
  {s s' : Restoring}

section Outpoints

variable (crypto : Crypto)

def outpoints (tx : Transaction) : List OutPoint :=
  (List.range tx.vout.length).map (fun i => ⟨crypto.txid tx, i⟩)

/-- The outputs of a block. -/
def createdOutpoints (block : Block) : List OutPoint := block.vtx.flatMap (outpoints crypto)

/-- The coins that a block spends directly, and those that its coinbase would overwrite. -/
def replacedOutpoints (block : Block) : List OutPoint :=
  block.vtx.flatMap (fun tx => directPrevouts tx ++
    if tx.isCoinBase then outpoints crypto tx else [])

variable {crypto}

theorem mem_outpoints :
    o ∈ outpoints crypto tx ↔ o.hash = crypto.txid tx ∧ o.n < tx.vout.length := by
  simp only [outpoints, List.mem_map, List.mem_range]
  constructor
  · rintro ⟨i, hi, rfl⟩
    exact ⟨rfl, hi⟩
  · rintro ⟨hhash, hn⟩
    exact ⟨o.n, hn, by rw [← hhash]⟩

theorem createdCoins_eq_none (h : o ∉ outpoints crypto tx) :
    createdCoins crypto tx nHeight o = none := by
  by_contra hsome
  obtain ⟨c, hc⟩ := ne_none_iff_exists'.mp hsome
  obtain ⟨hhash, -, out, hout, -⟩ := createdFrom_some hc
  rw [Nat.sub_zero] at hout
  exact h (mem_outpoints.mpr ⟨hhash, (List.getElem?_eq_some_iff.mp hout).1⟩)

end Outpoints

section Connect

theorem connectBlock_keeps {block : Block} {pindex : BlockIndex} {tip : CoinsTip}
    {store : KeyImageStore.Store} {c : Connected}
    (h : connectBlock rules false block pindex tip store = .ok c) (hpresent : tip.coins o ≠ none)
    (ho : o ∉ replacedOutpoints rules.crypto block) : c.tip.coins o = tip.coins o := by
  rcases connectBlock_ok h with ⟨-, -, -, rfl⟩ | ⟨p, hconn⟩
  · rfl
  obtain ⟨cb, txs, hvtx, hcb, htxs⟩ := hconn.checked.coinbase
  have hloop := hconn.loop
  obtain rfl := hconn.result
  rw [hvtx, connectTxs, bind_ok] at hloop
  obtain ⟨q, hq, hrest⟩ := hloop
  obtain ⟨undo, hupdate, -⟩ := (connectTx_ok hq).update
  have hkept : ∀ tx ∈ block.vtx, o ∉ directPrevouts tx := fun tx htx hmem =>
    ho (mem_flatMap.mpr ⟨tx, htx, mem_append_left _ hmem⟩)
  -- the coinbase erases nothing and does not reach the outpoint
  have hfirst : q.view o = tip.coins o := by
    have hnone : o ∉ outpoints rules.crypto cb := fun hmem => ho (mem_flatMap.mpr
      ⟨cb, hvtx ▸ mem_cons_self, mem_append_right _ (by rwa [if_pos hcb])⟩)
    rw [(updateCoins_some hupdate).1, overlay, createdCoins_eq_none hnone, none_or]
    exact if_neg (hkept cb (hvtx ▸ mem_cons_self))
  obtain ⟨hend, -⟩ := connectTxs_keeps hrest htxs (hfirst ▸ hpresent)
    (fun tx htx => hkept tx (hvtx ▸ mem_cons_of_mem _ htx))
  exact hend.trans hfirst

theorem connectTip_keeps {s s' : Chainstate} {b : ActiveBlock}
    (h : connectTip rules keys b.1 b.2 s = .ok s') (hpresent : s.tip.coins o ≠ none)
    (ho : o ∉ replacedOutpoints rules.crypto b.2) : s'.tip.coins o = s.tip.coins o := by
  obtain ⟨-, c, hc, rfl⟩ := connectTip_ok h
  exact connectBlock_keeps hc hpresent ho

end Connect

section Disconnect

variable {crypto : Crypto}

/-- A result that is clean was clean before, and has the coin if it was there. -/
def Keeps (o : OutPoint) (c : Coin) (s s' : Restoring) : Prop :=
  s'.fClean = true → s.fClean = true ∧ (s.view o = some c → s'.view o = some c)

theorem Keeps.refl (o : OutPoint) (c : Coin) (s : Restoring) : Keeps o c s s := fun h => ⟨h, id⟩

theorem Keeps.trans {t u : Restoring} (h : Keeps o c s t) (h' : Keeps o c t u) : Keeps o c s u := by
  intro hclean
  obtain ⟨ht, hcoin⟩ := h' hclean
  exact ⟨(h ht).1, fun hs => hcoin ((h ht).2 hs)⟩

theorem keeps_removeOutputs {exempt : Bool} {i : ℕ} {outs : List TxOut}
    (ho : ¬ (o.hash = crypto.txid tx ∧ o.n < i + outs.length)) :
    Keeps o c s (removeOutputs crypto tx nHeight exempt i outs s) := by
  induction outs generalizing i s with
  | nil => exact Keeps.refl o c s
  | cons out outs ih =>
    have hrest : ¬ (o.hash = crypto.txid tx ∧ o.n < i + 1 + outs.length) := by
      rw [length_cons] at ho
      rwa [Nat.add_assoc, Nat.add_comm 1]
    have hne : o ≠ ⟨crypto.txid tx, i⟩ := by
      rintro rfl
      exact ho ⟨rfl, by simp⟩
    rw [removeOutputs]
    split
    · exact ih hrest
    · refine Keeps.trans (fun hclean => ⟨?_, fun hs => ?_⟩) (ih hrest)
      · exact (Bool.and_eq_true_iff.mp hclean).1
      · exact (Function.update_of_ne hne _ _).trans hs

/-- An outpoint that has its coin is not restored cleanly. -/
theorem keeps_applyTxInUndo {undo : Coin} {out : OutPoint} (h : applyTxInUndo undo out s = .ok s') :
    Keeps o c s s' := by
  simp only [applyTxInUndo, bind_ok] at h
  obtain ⟨back, -, -, -, h⟩ := h
  split at h
  · contradiction
  · rename_i view hadd
    rw [Except.ok.injEq] at h
    subst h
    intro hclean
    obtain ⟨hs, hgone⟩ := Bool.and_eq_true_iff.mp hclean
    refine ⟨hs, fun hcoin => ?_⟩
    have hne : o ≠ out := by
      rintro rfl
      simp [CoinsView.haveCoin, hcoin] at hgone
    unfold CoinsView.addCoin at hadd
    split at hadd
    · rwa [← some.inj hadd]
    · split at hadd
      · contradiction
      · rw [← some.inj hadd]
        exact (Function.update_of_ne hne _ _).trans hcoin

theorem keeps_restoreInputs {inputs : List (OutPoint × Coin)}
    (h : restoreInputs inputs s = .ok s') : Keeps o c s s' := by
  induction inputs generalizing s' with
  | nil =>
    rw [restoreInputs, Except.ok.injEq] at h
    exact h ▸ Keeps.refl o c s
  | cons input rest ih =>
    obtain ⟨out, undo⟩ := input
    rw [restoreInputs, bind_ok] at h
    obtain ⟨t, ht, hlast⟩ := h
    exact (ih ht).trans (keeps_applyTxInUndo hlast)

theorem keeps_disconnectTx {enforce : Bool} {txundo : Option (List Coin)}
    (h : disconnectTx crypto nHeight enforce tx txundo s = .ok s') (ho : o ∉ outpoints crypto tx) :
    Keeps o c s s' := by
  rw [mem_outpoints] at ho
  have houts : Keeps o c s
      (removeOutputs crypto tx nHeight (tx.isCoinBase && !enforce) 0 tx.vout s) :=
    keeps_removeOutputs (by rwa [Nat.zero_add])
  unfold disconnectTx at h
  cases txundo with
  | none =>
    rw [Except.ok.injEq] at h
    exact h ▸ houts
  | some vprevout =>
    simp only [bind_ok] at h
    obtain ⟨-, -, h⟩ := h
    split at h
    · rw [Except.ok.injEq] at h
      exact h ▸ houts
    · exact houts.trans (keeps_restoreInputs h)

theorem keeps_disconnectTxs {enforce : Bool} {txs : List (Transaction × Option (List Coin))}
    (h : disconnectTxs crypto nHeight enforce txs s = .ok s')
    (ho : ∀ p ∈ txs, o ∉ outpoints crypto p.1) : Keeps o c s s' := by
  induction txs generalizing s' with
  | nil =>
    rw [disconnectTxs, Except.ok.injEq] at h
    exact h ▸ Keeps.refl o c s
  | cons p rest ih =>
    obtain ⟨tx, txundo⟩ := p
    rw [disconnectTxs, bind_ok] at h
    obtain ⟨t, ht, hlast⟩ := h
    have hown : o ∉ outpoints crypto tx := ho (tx, txundo) mem_cons_self
    have hrest := ih ht fun q hq => ho q (mem_cons_of_mem _ hq)
    exact hrest.trans (keeps_disconnectTx hlast hown)

theorem disconnectTip_keeps {s s' : Chainstate} (h : disconnectTip rules keys s = .ok s')
    (hpresent : s.tip.coins o = some c)
    (ho : ∀ b ∈ s.chain.head?, o ∉ createdOutpoints rules.crypto b.2) :
    s'.tip.coins o = some c := by
  obtain ⟨pindex, block, rest, d, hchain, hd, hclean, rfl⟩ := disconnectTip_ok h
  obtain ⟨file, prev, rest', vtxundo, t, -, -, -, -, ht, rfl⟩ := disconnectBlock_ok.mp hd
  have hblock := ho (pindex, block) (by rw [hchain]; rfl)
  have hkeeps : Keeps o c ⟨s.tip.coins, true⟩ t := by
    refine keeps_disconnectTxs ht fun p hp hmem => hblock ?_
    exact mem_flatMap.mpr ⟨p.1, (of_mem_zip hp).1, hmem⟩
  exact (hkeeps hclean).2 hpresent

end Disconnect

end Pricoin.CoinsKept
