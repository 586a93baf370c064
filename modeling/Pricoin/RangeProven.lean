import Pricoin.CoinsKept
import Pricoin.MempoolAdmission

/-!
Where the confidential coins come from. A coin gets its commitment from an output of
a transaction that was accepted, so that a range proof for it has been verified. This
holds of the tip in every run of connections and disconnections, since the undo data
of a block brings back only coins that were there, and it holds of the views that
the next block and the memory pool look at.
-/
namespace Pricoin.RangeProven

open ByteStreams Codecs Checks Runs KeyImageFile KeyImageStore Transactions Coins TxChecks
open List Option Function
open BlockConnection UndoCodec BlockDisconnection ConnectDisconnect ActiveChain CoinsKept
open Mempool MempoolAccept MempoolAdmission

variable {crypto : Crypto} {keys : PubKeys} {rules : Rules} {c : Coin} {view : CoinsView}
  {s s' : Restoring} {tx : Transaction} {nHeight : ℕ} {committed : Finset Point}
  {pindex : BlockIndex}

/-- A coin that undo data can hold, with a range proof for its commitment. -/
structure Proven (crypto : Crypto) (c : Coin) : Prop where
  height_lt : c.nHeight < 2 ^ 30
  short : c.out.scriptPubKey.length ≤ maxScriptSize
  proof : c.fConfidential = true →
    ∃ rangeproof script, crypto.verifyRangeProof c.commitment rangeproof script = true

def ViewProven (crypto : Crypto) (view : CoinsView) : Prop :=
  ∀ o c, view o = some c → Proven crypto c

def UndoProven (crypto : Crypto) (undo : BlockUndo) : Prop := ∀ cs ∈ undo, ∀ c ∈ cs, Proven crypto c

/-- Whatever the file is read as has proven coins. -/
def FileProven (crypto : Crypto) (keys : PubKeys) (file : List UInt8) : Prop :=
  ∀ prev undo, readBlockUndo crypto keys prev file = some undo → UndoProven crypto undo

structure ChainProven (crypto : Crypto) (keys : PubKeys) (s : Chainstate) : Prop where
  coins : ViewProven crypto s.tip.coins
  undo : ∀ blockHash file, s.undoFiles blockHash = some file → FileProven crypto keys file

section Undo

theorem proven_empty : Proven crypto Coin.empty :=
  ⟨by decide, by decide, fun h => by simp [Coin.empty, Coin.transparent] at h⟩

theorem reads_confidential (flag : Bool) (commitment : Commitment) (oneTimePubkey : Point) :
    ∃ commitment' oneTimePubkey', (flag = true → commitment' = commitment) ∧
      confidentialCodec.Reads (flag, commitment, oneTimePubkey)
        (flag, commitment', oneTimePubkey') := by
  cases flag with
  | false => exact ⟨zeroPoint, zeroPoint, by simp, fun rest => rfl⟩
  | true => exact ⟨commitment, oneTimePubkey, fun _ => rfl, lossless_confidential (by simp)⟩

/-- A proven coin is read back as a proven one, whatever becomes of its amount. -/
theorem Proven.reads (h : Proven crypto c) :
    ∃ c', Proven crypto c' ∧ (txInUndo keys).Reads c c' := by
  obtain ⟨commitment, oneTimePubkey, hsame, hflag⟩ :=
    reads_confidential c.fConfidential c.commitment c.oneTimePubkey
  obtain ⟨value, hvalue⟩ : ∃ value, amountCompression.Reads c.out.nValue value :=
    ⟨_, Codec.Reads.via (lossless_varInt64 (compressAmount_lt _))⟩
  have hpair := Codec.Reads.pair hvalue (lossless_script keys h.short)
  have hout : (txOutCompression keys).Reads c.out ⟨value, c.out.scriptPubKey⟩ := by
    intro rest
    simp only [txOutCompression, Codec.via, hpair rest, map_some]
  have hall := Codec.Reads.pair (lossless_height h.height_lt c.fCoinBase)
    (Codec.Reads.pair hout hflag)
  have hcoin : (txInUndo keys).Reads c ⟨⟨value, c.out.scriptPubKey⟩, c.fCoinBase, c.fConfidential,
      c.nHeight, commitment, oneTimePubkey⟩ := by
    intro rest
    simp only [txInUndo, Codec.via, hall rest, map_some]
  refine ⟨_, ?_, hcoin⟩
  refine ⟨h.height_lt, h.short, fun hconf => ?_⟩
  have hproof := h.proof hconf
  rwa [← hsame hconf] at hproof

theorem exists_forall₂ {α β : Type} {p : α → Prop} {q : β → Prop} {r : α → β → Prop}
    (hr : ∀ a, p a → ∃ b, q b ∧ r a b) {as : List α} (h : ∀ a ∈ as, p a) :
    ∃ bs, (∀ b ∈ bs, q b) ∧ List.Forall₂ r as bs := by
  induction as with
  | nil => exact ⟨[], by simp, .nil⟩
  | cons a as ih =>
    obtain ⟨b, hb, hab⟩ := hr a (h a mem_cons_self)
    obtain ⟨bs, hbs, hall⟩ := ih fun a' ha' => h a' (mem_cons_of_mem _ ha')
    exact ⟨b :: bs, forall_mem_cons.mpr ⟨hb, hbs⟩, .cons hab hall⟩

/-- What is written of proven coins has proven coins, under whatever parent it is read. -/
theorem fileProven_writeBlockUndo {prev : BlockHash} {undo : BlockUndo}
    (hlen : undo.length ≤ maxSize)
    (hundo : ∀ cs ∈ undo, cs.length ≤ maxSize ∧ ∀ c ∈ cs, Proven crypto c) :
    FileProven crypto keys (writeBlockUndo crypto keys prev undo) := by
  have h64 : maxSize < 2 ^ 64 := by decide
  have hcoins : ∀ cs, (cs.length ≤ maxSize ∧ ∀ c ∈ cs, Proven crypto c) →
      ∃ cs', (∀ c ∈ cs', Proven crypto c) ∧
        (Codec.vector maxSize (txInUndo keys)).Reads cs cs' := by
    rintro cs ⟨hcs, hproven⟩
    obtain ⟨cs', hproven', hreads⟩ := exists_forall₂ (fun c hc => Proven.reads hc) hproven
    exact ⟨cs', hproven', Codec.reads_vector hcs (by omega) hreads⟩
  obtain ⟨undo', hundo', hreads⟩ := exists_forall₂ hcoins hundo
  have hread : (blockUndo keys).Reads undo undo' := Codec.reads_vector hlen (by omega) hreads
  intro prev' undo₁ hundo₁
  simp only [readBlockUndo, writeBlockUndo, hread _, bind_eq_bind, bind_some,
    bind_eq_some_iff] at hundo₁
  obtain ⟨_, -, hundo₁⟩ := hundo₁
  obtain ⟨-, hsame⟩ := ite_none_right_eq_some.mp hundo₁
  rw [← some.inj hsame]
  exact hundo'

end Undo

section Disconnect

theorem ViewProven.spendCoin (h : ViewProven crypto view) (o : OutPoint) :
    ViewProven crypto (view.spendCoin o) := by
  intro o' c hc
  by_cases ho : o' = o
  · subst ho
    simp [CoinsView.spendCoin] at hc
  · rw [CoinsView.spendCoin, update_of_ne ho] at hc
    exact h o' c hc

theorem ViewProven.addCoin {view' : CoinsView} (h : ViewProven crypto view) {o : OutPoint}
    (hc : Proven crypto c) {possibleOverwrite : Bool}
    (hadd : view.addCoin o c possibleOverwrite = some view') : ViewProven crypto view' := by
  unfold CoinsView.addCoin at hadd
  split at hadd
  · exact some.inj hadd ▸ h
  · split at hadd
    · contradiction
    · rw [← some.inj hadd]
      intro o' c' hc'
      by_cases ho : o' = o
      · subst ho
        rw [update_self, some.injEq] at hc'
        exact hc' ▸ hc
      · rw [update_of_ne ho] at hc'
        exact h o' c' hc'

theorem accessByTxid_some {txid : Txid} (h : accessByTxid view txid = some c) :
    ∃ o, view o = some c := by
  unfold accessByTxid at h
  generalize List.range maxOutputsPerBlock = ns at h
  obtain ⟨n, -, hc⟩ := exists_of_findSome?_eq_some h
  exact ⟨_, hc⟩

theorem proven_undoMetadata {undo undo' : Coin} {out : OutPoint} (hview : ViewProven crypto view)
    (hundo : Proven crypto undo) (h : undoMetadata undo view out = .ok undo') :
    Proven crypto undo' := by
  unfold undoMetadata at h
  split at h
  · split at h
    · rename_i alternate halternate
      obtain ⟨o, ho⟩ := accessByTxid_some halternate
      rw [← Except.ok.inj h]
      exact ⟨(hview o alternate ho).height_lt, hundo.short, hundo.proof⟩
    · simp at h
  · exact Except.ok.inj h ▸ hundo

section

variable (hview : ViewProven crypto s.view)
include hview

theorem viewProven_applyTxInUndo {undo : Coin} {out : OutPoint} (hundo : Proven crypto undo)
    (h : applyTxInUndo undo out s = .ok s') : ViewProven crypto s'.view := by
  simp only [applyTxInUndo, bind_ok] at h
  obtain ⟨undo', hundo', -, -, h⟩ := h
  split at h
  · contradiction
  · rename_i view hadd
    rw [← Except.ok.inj h]
    exact hview.addCoin (proven_undoMetadata hview hundo hundo') hadd

theorem viewProven_restoreInputs {inputs : List (OutPoint × Coin)}
    (hinputs : ∀ p ∈ inputs, Proven crypto p.2) (h : restoreInputs inputs s = .ok s') :
    ViewProven crypto s'.view := by
  induction inputs generalizing s' with
  | nil =>
    rw [restoreInputs, Except.ok.injEq] at h
    exact h ▸ hview
  | cons p rest ih =>
    obtain ⟨out, undo⟩ := p
    rw [restoreInputs, bind_ok] at h
    obtain ⟨t, ht, h⟩ := h
    rw [forall_mem_cons] at hinputs
    exact viewProven_applyTxInUndo (ih hinputs.2 ht) hinputs.1 h

theorem viewProven_removeOutputs {exempt : Bool} {i : ℕ} {outs : List TxOut} :
    ViewProven crypto (removeOutputs crypto tx nHeight exempt i outs s).view := by
  induction outs generalizing i s with
  | nil => exact hview
  | cons out outs ih =>
    unfold removeOutputs
    split
    · exact ih hview
    · exact ih (hview.spendCoin _)

theorem viewProven_disconnectTx {enforce : Bool} {txundo : Option (List Coin)}
    (hundo : ∀ cs ∈ txundo, ∀ c ∈ cs, Proven crypto c)
    (h : disconnectTx crypto nHeight enforce tx txundo s = .ok s') : ViewProven crypto s'.view := by
  unfold disconnectTx at h
  split at h
  · exact Except.ok.inj h ▸ viewProven_removeOutputs hview
  · rename_i vprevout
    rw [bind_ok] at h
    obtain ⟨-, -, h⟩ := h
    split at h
    · exact Except.ok.inj h ▸ viewProven_removeOutputs hview
    · refine viewProven_restoreInputs (viewProven_removeOutputs hview) (fun p hp => ?_) h
      exact hundo vprevout rfl p.2 (of_mem_zip hp).2

theorem viewProven_disconnectTxs {enforce : Bool} {txs : List (Transaction × Option (List Coin))}
    (hundo : ∀ p ∈ txs, ∀ cs ∈ p.2, ∀ c ∈ cs, Proven crypto c)
    (h : disconnectTxs crypto nHeight enforce txs s = .ok s') : ViewProven crypto s'.view := by
  induction txs generalizing s' with
  | nil =>
    rw [disconnectTxs, Except.ok.injEq] at h
    exact h ▸ hview
  | cons p rest ih =>
    obtain ⟨tx, txundo⟩ := p
    rw [disconnectTxs, bind_ok] at h
    obtain ⟨t, ht, h⟩ := h
    rw [forall_mem_cons] at hundo
    exact viewProven_disconnectTx (ih hundo.2 ht) hundo.1 h

end

theorem chainProven_disconnectTip {rules : Rules} {s s' : Chainstate}
    (hs : ChainProven rules.crypto keys s) (h : disconnectTip rules keys s = .ok s') :
    ChainProven rules.crypto keys s' := by
  obtain ⟨pindex, block, rest, d, -, hd, -, rfl⟩ := disconnectTip_ok h
  obtain ⟨file, prev, _, vtxundo, r, hfile, -, hread, -, hback, rfl⟩ := disconnectBlock_ok.mp hd
  refine ⟨viewProven_disconnectTxs hs.coins (fun p hp => ?_) hback, hs.undo⟩
  have hmem := (of_mem_zip hp).2
  rcases mem_cons.mp hmem with hnone | hsome
  · simp [hnone]
  · obtain ⟨cs, hcs, heq⟩ := mem_map.mp hsome
    intro cs' hcs'
    rw [← heq, mem_some] at hcs'
    exact hcs' ▸ hs.undo _ file hfile prev vtxundo hread cs hcs

end Disconnect

section Connect

/-- Verification has checked the range proof of every output. -/
theorem rangeProofs_of_verifyConfidentialContextual {crypto : Crypto} {nSpendHeight : ℕ} {fee : ℤ}
    (h : verifyConfidentialContextual crypto tx view committed nSpendHeight = .ok fee) :
    ∀ o ∈ tx.ctBundle.outputs,
      crypto.verifyRangeProof o.commitment o.rangeproof o.scriptPubkey = true := by
  simp only [verifyConfidentialContextual, bind_ok, rejectIf_ok, not_exists, not_and,
    Bool.not_eq_false] at h
  obtain ⟨-, -, -, -, -, -, -, -, -, -, -, hproofs, -⟩ := h
  exact hproofs

theorem length_le_of_spendable {script : Script} (h : isUnspendable script = false) :
    script.length ≤ maxScriptSize := by
  simp only [isUnspendable, Bool.or_eq_false_iff, decide_eq_false_iff_not] at h
  omega

/-- A coin that a connected transaction creates is proven, and so is the undo data it leaves. -/
theorem TxConnected.proven {first : Bool} {p p' : Progress}
    (h : TxConnected rules committed pindex first tx p p')
    (hview : ViewProven rules.crypto p.view) :
    ViewProven rules.crypto p'.view ∧ ∃ undo, (∀ c ∈ undo, Proven rules.crypto c) ∧
      undo.length ≤ tx.vin.length ∧ p'.undo = if first then p.undo else p.undo ++ [undo] := by
  obtain ⟨undo, hupdate, hundo⟩ := h.update
  obtain ⟨hview', -, -, hspent⟩ := updateCoins_some hupdate
  refine ⟨fun o c hc => ?_, undo, ?_, ?_, hundo⟩
  · rw [hview', overlay, or_eq_some_iff] at hc
    rcases hc with hc | ⟨-, hc⟩
    · obtain ⟨-, -, out, hout, hspend, rfl⟩ := createdFrom_some hc
      refine ⟨by rw [outputCoin_nHeight]; exact pindex.height_lt,
        by rw [outputCoin_out]; exact length_le_of_spendable hspend, ?_⟩
      intro hconf
      unfold outputCoin at hconf ⊢
      split at hconf
      · rename_i hv
        obtain ⟨fee, hfee⟩ := h.contextual hv.2 hv.1
        rw [if_pos hv]
        split at hconf
        · rename_i ct hct
          exact ⟨_, _, rangeProofs_of_verifyConfidentialContextual hfee ct
            (mem_of_getElem? hct)⟩
        · simp [Coin.transparent] at hconf
      · simp [Coin.transparent] at hconf
    · unfold erase at hc
      split at hc
      · contradiction
      · exact hview o c hc
  · intro c hc
    split at hspent
    · simp [hspent] at hc
    · split at hspent
      · rw [hspent] at hc
        obtain ⟨-, -, rfl⟩ := mem_map.mp hc
        exact proven_empty
      · have hmem : some c ∈ tx.prevouts.map p.view := hspent ▸ mem_map_of_mem hc
        obtain ⟨o, -, ho⟩ := mem_map.mp hmem
        exact hview o c ho
  · split at hspent
    · simp [hspent]
    · split at hspent
      · simp [hspent]
      · have hlen := congrArg List.length hspent
        simp only [length_map, Transaction.prevouts] at hlen
        omega

/-- Undo data that a block of checked transactions leaves is proven and fits its file. -/
theorem connectTxs_proven {first : Bool} {txs : List Transaction} {p p' : Progress}
    (h : connectTxs rules committed pindex first txs p = .ok p') (hsound : ∀ tx ∈ txs, TxSound tx)
    (hview : ViewProven rules.crypto p.view)
    (hundo : ∀ cs ∈ p.undo, cs.length ≤ maxSize ∧ ∀ c ∈ cs, Proven rules.crypto c) :
    ViewProven rules.crypto p'.view ∧ p'.undo.length ≤ p.undo.length + txs.length ∧
      ∀ cs ∈ p'.undo, cs.length ≤ maxSize ∧ ∀ c ∈ cs, Proven rules.crypto c := by
  have hinv := connectTxs_invariant (fun rest q => (∀ tx ∈ rest, TxSound tx) ∧
      ViewProven rules.crypto q.view ∧ q.undo.length + rest.length ≤ p.undo.length + txs.length ∧
      ∀ cs ∈ q.undo, cs.length ≤ maxSize ∧ ∀ c ∈ cs, Proven rules.crypto c)
    (fun first tx rest q q' hq hinv => ?_) h ⟨hsound, hview, le_refl _, hundo⟩
  · obtain ⟨-, hview', hlen, hall⟩ := hinv
    exact ⟨hview', by simpa using hlen, hall⟩
  · obtain ⟨hrest, hview', hlen, hall⟩ := hinv
    rw [forall_mem_cons] at hrest
    rw [length_cons] at hlen
    obtain ⟨hnext, undo, hproven, hshort, hq'⟩ := TxConnected.proven hq hview'
    refine ⟨hrest.2, hnext, ?_, fun cs hcs => ?_⟩
    · rw [hq']
      split
      · omega
      · rw [length_append, length_singleton]
        omega
    · rw [hq'] at hcs
      split at hcs
      · exact hall cs hcs
      · rcases mem_append.mp hcs with hold | hnew
        · exact hall cs hold
        · rw [mem_singleton.mp hnew]
          refine ⟨?_, hproven⟩
          have hin := (length_le_serializeNoWitness tx).1
          have hsize := hrest.1.sized
          rw [maxSize]
          omega

/-- A file is an old one or has just been written. -/
theorem recordUndo_some {undo : Option BlockUndo} {undoFiles : BlockHash → Option (List UInt8)}
    {blockHash : BlockHash} {file : List UInt8}
    (h : recordUndo rules keys pindex undo undoFiles blockHash = some file) :
    undoFiles blockHash = some file ∨
      ∃ undo', undo = some undo' ∧
        file = writeBlockUndo rules.crypto keys pindex.prevHash undo' := by
  unfold recordUndo at h
  cases undo with
  | none => exact .inl h
  | some undo' =>
    cases hpos : undoFiles pindex.hash with
    | some _ =>
      simp only [hpos] at h
      exact .inl h
    | none =>
      simp only [hpos] at h
      by_cases hown : blockHash = pindex.hash
      · rw [hown, update_self, some.injEq] at h
        exact .inr ⟨undo', rfl, h.symm⟩
      · rw [update_of_ne hown] at h
        exact .inl h

theorem chainProven_connectTip {block : Block} {s s' : Chainstate}
    (hs : ChainProven rules.crypto keys s) (h : connectTip rules keys pindex block s = .ok s') :
    ChainProven rules.crypto keys s' := by
  obtain ⟨-, c, hc, rfl⟩ := connectTip_ok h
  rcases connectBlock_ok hc with ⟨-, -, -, rfl⟩ | ⟨p, hconn⟩
  · exact ⟨hs.coins, hs.undo⟩
  · obtain ⟨hview, hlen, hundo⟩ := connectTxs_proven hconn.loop hconn.checked.sound hs.coins
      (by simp)
    have hsized := hconn.checked.sized
    obtain rfl := hconn.result
    refine ⟨hview, fun blockHash file hfile => ?_⟩
    rcases recordUndo_some hfile with hold | ⟨undo, heq, rfl⟩
    · exact hs.undo blockHash file hold
    · rw [← some.inj heq]
      refine fileProven_writeBlockUndo ?_ hundo
      rw [length_nil, Nat.zero_add] at hlen
      rw [maxSize]
      omega

/-- The confidential coins of the tip are proven in every run from the empty chain. -/
theorem chainProven_run {store : Store} {steps : List TipStep} {s : Chainstate}
    (h : run (tipStep rules keys) (emptyChain store) steps = .ok s) :
    ChainProven rules.crypto keys s := by
  refine run_invariant (fun t a t' hstep ht => ?_) h ⟨fun o c hc => by simp [emptyChain] at hc,
    fun blockHash file hfile => by simp [emptyChain] at hfile⟩
  rcases tipStep_cases hstep with ⟨pindex, block, -, hc⟩ | ⟨-, hd⟩
  · exact chainProven_connectTip ht hc
  · exact chainProven_disconnectTip ht hd

end Connect

section Views

/-- The views that transactions are verified against: the tip, the tip under the memory pool, and
the view that the loop over the next block's transactions has reached. -/
inductive NodeView (rules : Rules) (s : Chainstate) : CoinsView → Prop
  | tip : NodeView rules s s.tip.coins
  | mempool {added : CoinsView} (unconfirmed : Unconfirmed added) (pool : Pool) :
      NodeView rules s (viewMempool rules.crypto added pool s.tip.coins)
  | block {pindex : BlockIndex} {txs : List Transaction} {p : Progress}
      (sound : ∀ tx ∈ txs, TxSound tx)
      (loop : connectTxs rules s.store.images.members pindex true txs ⟨s.tip.coins, 0, 0, [], []⟩ =
        .ok p) : NodeView rules s p.view

def ConfidentialProven (crypto : Crypto) (view : CoinsView) : Prop :=
  ∀ o c, view o = some c → c.fConfidential = true →
    ∃ rangeproof script, crypto.verifyRangeProof c.commitment rangeproof script = true

theorem confidentialProven_nodeView {s : Chainstate} (hs : ChainProven rules.crypto keys s)
    (hview : NodeView rules s view) : ConfidentialProven rules.crypto view := by
  intro o c hc hconf
  cases hview with
  | tip => exact (hs.coins o c hc).proof hconf
  | mempool unconfirmed pool => exact (hs.coins o c (unconfirmed.base hc hconf)).proof hconf
  | block sound loop =>
    exact ((connectTxs_proven loop sound hs.coins (by simp)).1 o c hc).proof hconf

end Views

end Pricoin.RangeProven
