import Pricoin.BlockDisconnection

/-!
Disconnecting a block undoes connecting it. A transaction's outputs are found as
the block made them and taken out, and the coins that its inputs erased come back
from the undo data. Ring transactions erased nothing. Undoing the transactions
last to first takes the view back through the states of the connection.
-/
namespace Pricoin.ConnectDisconnect

open ByteStreams Codecs Checks KeyImageFile KeyImageStore Transactions Coins TxChecks
open List Option Function
open BlockConnection UndoCodec BlockDisconnection TaggedSets

variable {tx : Transaction} {nHeight : ℕ} {view view' : CoinsView} {clean : Bool} {undo : List Coin}
  {block : Block}

/-- Every coin of the view is one that a block has put there. -/
def ViewStored (view : CoinsView) : Prop := ∀ o c, view o = some c → c.Stored

section Transactions

variable {crypto : Crypto}

theorem spendCoin_overlay_createdFrom {i : ℕ} {out : TxOut} {outs : List TxOut}
    (hfree : view ⟨crypto.txid tx, i⟩ = none) :
    CoinsView.spendCoin (overlay (createdFrom crypto tx nHeight i (out :: outs)) view)
      ⟨crypto.txid tx, i⟩ = overlay (createdFrom crypto tx nHeight (i + 1) outs) view := by
  funext o
  unfold CoinsView.spendCoin
  by_cases ho : o = ⟨crypto.txid tx, i⟩
  · subst ho
    simp [overlay, createdFrom_own, hfree]
  · rw [update_of_ne ho, overlay, createdFrom_tail tx nHeight i out outs ho, overlay]

theorem outputMatches_outputCoin (tx : Transaction) (nHeight i : ℕ) (out : TxOut) :
    outputMatches tx nHeight out (some (outputCoin tx nHeight i out)) = true := by
  simp [outputMatches]

/-- The outputs that a transaction has added are found and taken out again. -/
theorem removeOutputs_overlay {i : ℕ} {exempt : Bool} {outs : List TxOut}
    (hfree : ∀ o, createdFrom crypto tx nHeight i outs o ≠ none → view o = none) :
    removeOutputs crypto tx nHeight exempt i outs
      ⟨overlay (createdFrom crypto tx nHeight i outs) view, clean⟩ = ⟨view, clean⟩ := by
  induction outs generalizing i with
  | nil =>
    have hview : overlay (createdFrom crypto tx nHeight i []) view = view := by
      funext o
      simp [overlay, createdFrom_nil]
    rw [removeOutputs, hview]
  | cons out outs ih =>
    have htail : ∀ o, createdFrom crypto tx nHeight (i + 1) outs o ≠ none → view o = none := by
      intro o ho
      by_cases hown : o = ⟨crypto.txid tx, i⟩
      · subst hown
        exact absurd (createdFrom_own tx nHeight i outs) ho
      · exact hfree o (by rwa [createdFrom_tail tx nHeight i out outs hown])
    rw [removeOutputs]
    by_cases hout : isUnspendable out.scriptPubKey = true
    · rw [if_pos hout, ← overlay_createdFrom_skip hout, ih htail]
    · have hhead := @createdFrom_head crypto tx nHeight i out outs
      rw [if_neg hout] at hhead
      have hmatch : outputMatches tx nHeight out
          (overlay (createdFrom crypto tx nHeight i (out :: outs)) view ⟨crypto.txid tx, i⟩) =
          true := by
        rw [overlay, hhead, some_or]
        exact outputMatches_outputCoin tx nHeight i out
      have hspent := hfree ⟨crypto.txid tx, i⟩ (by simp [hhead])
      rw [if_neg hout]
      simp only [hmatch, Bool.or_true, Bool.and_true]
      rw [spendCoin_overlay_createdFrom hspent, ih htail]

/-- A coin comes back from its undo entry where it was erased. -/
theorem applyTxInUndo_of_spent {o : OutPoint} {c : Coin} (h : view o = some c) (hc : c.Stored) :
    applyTxInUndo c o ⟨view.spendCoin o, clean⟩ = .ok ⟨view, clean⟩ := by
  have hheight : c.nHeight ≠ 0 := Nat.ne_of_gt hc.height_pos
  have hvalue : c.out.nValue ≠ -1 := by
    have := hc.money.1
    omega
  have hgone : (view.spendCoin o).haveCoin o = false := by
    simp [CoinsView.haveCoin, CoinsView.spendCoin]
  have hback : Function.update (view.spendCoin o) o (some c) = view := by
    rw [CoinsView.spendCoin, update_idem, ← h, update_eq_self]
  simp [applyTxInUndo, undoMetadata, hheight, hvalue, hgone, CoinsView.addCoin, hc.spendable,
    hback, rejectIf, bind, Except.bind]

theorem restoreInputs_erase {os : List OutPoint} (hnd : os.Nodup)
    (hundo : os.map view = undo.map some) (hstored : ∀ c ∈ undo, c.Stored) :
    restoreInputs (os.zip undo) ⟨erase os view, clean⟩ = .ok ⟨view, clean⟩ := by
  induction os generalizing view undo with
  | nil => rw [zip_nil_left, restoreInputs, erase_nil]
  | cons o os ih =>
    cases undo with
    | nil => simp at hundo
    | cons c undo =>
      simp only [map_cons, cons.injEq] at hundo
      obtain ⟨ho, hos⟩ := nodup_cons.mp hnd
      have hrest := ih hos ((map_spendCoin ho view).trans hundo.2)
        (fun c' hc' => hstored c' (mem_cons_of_mem _ hc'))
      rw [zip_cons_cons, restoreInputs, erase_cons, hrest]
      exact applyTxInUndo_of_spent hundo.1 (hstored c mem_cons_self)

theorem undo_stored (hview : ViewStored view) {os : List OutPoint}
    (hundo : os.map view = undo.map some) : ∀ c ∈ undo, c.Stored := by
  intro c hc
  have hmem : some c ∈ os.map view := by
    rw [hundo]
    exact mem_map_of_mem hc
  obtain ⟨o, -, ho⟩ := mem_map.mp hmem
  exact hview o c ho

/-- The undo data that a transaction needs: that of the spent coins, or any in the right number
when it spends by ring. -/
def UndoFits (tx : Transaction) (undo vprevout : List Coin) : Prop :=
  if tx.isV4Ring then vprevout.length = tx.vin.length else vprevout = undo

theorem disconnectTx_updateCoins {enforce : Bool} {vprevout : List Coin} (hview : ViewStored view)
    (hcb : tx.isCoinBase = false) (h : updateCoins crypto tx nHeight view = some (view', undo))
    (hfits : UndoFits tx undo vprevout) :
    disconnectTx crypto nHeight enforce tx (some vprevout) ⟨view', clean⟩ = .ok ⟨view, clean⟩ := by
  obtain ⟨rfl, hfree, hnd, hundo⟩ := updateCoins_some h
  rw [disconnectTx, createdCoins, removeOutputs_overlay (hfree hcb)]
  simp only [hcb, Bool.false_eq_true, if_false] at hundo
  unfold UndoFits at hfits
  unfold directPrevouts at hnd ⊢
  by_cases hring : tx.isV4Ring = true
  · rw [if_pos hring] at hfits
    simp [hring, hfits, erase_nil, rejectIf, bind, Except.bind]
  · simp only [hring, Bool.false_eq_true, if_false, hcb, Bool.or_self] at hfits hundo hnd ⊢
    have hlen : vprevout.length = tx.vin.length := by
      have := congrArg List.length hundo
      simpa [Transaction.prevouts, hfits] using this.symm
    subst hfits
    simp only [rejectIf, hlen, ne_eq, not_true_eq_false, if_false]
    exact restoreInputs_erase hnd hundo (undo_stored hview hundo)

theorem disconnectTx_coinbase {enforce : Bool} (hcb : tx.isCoinBase = true)
    (h : updateCoins crypto tx nHeight view = some (view', undo))
    (hfree : ∀ o, createdCoins crypto tx nHeight o ≠ none → view o = none) :
    disconnectTx crypto nHeight enforce tx none ⟨view', clean⟩ = .ok ⟨view, clean⟩ := by
  obtain ⟨rfl, -⟩ := updateCoins_some h
  have hnone : directPrevouts tx = [] := by simp [directPrevouts, hcb]
  rw [disconnectTx, hnone, erase_nil, createdCoins, removeOutputs_overlay hfree]

theorem viewStored_updateCoins (hsound : TxSound tx) (hpos : 0 < nHeight) (hlt : nHeight < 2 ^ 30)
    (h : updateCoins crypto tx nHeight view = some (view', undo)) (hview : ViewStored view) :
    ViewStored view' := by
  obtain ⟨rfl, -⟩ := updateCoins_some h
  intro o c hc
  rw [overlay, or_eq_some_iff] at hc
  rcases hc with hc | ⟨-, hc⟩
  · obtain ⟨-, -, out, hout, hspend, rfl⟩ := createdFrom_some hc
    refine ⟨by simpa, by simpa, ?_, by simpa, fun hplain => ?_⟩
    · rw [outputCoin_out]
      exact hsound.values out (mem_of_getElem? hout)
    · rcases outputCoin_cases tx nHeight o.n out with heq | ⟨ct, -, heq⟩
      · rw [heq]
        exact ⟨rfl, rfl⟩
      · rw [heq] at hplain
        simp [Coin.confidential] at hplain
  · unfold erase at hc
    split at hc
    · contradiction
    · exact hview o c hc

/-- What a transaction writes as undo data is read as undo data that fits. -/
theorem undoFits_of_updateCoins (keys : PubKeys) (hview : ViewStored view)
    (hcb : tx.isCoinBase = false) (h : updateCoins crypto tx nHeight view = some (view', undo)) :
    undo.length = tx.vin.length ∧
    ∃ vprevout, UndoFits tx undo vprevout ∧ List.Forall₂ (txInUndo keys).Reads undo vprevout := by
  obtain ⟨-, -, -, hundo⟩ := updateCoins_some h
  simp only [hcb, Bool.false_eq_true, if_false] at hundo
  unfold UndoFits
  by_cases hring : tx.isV4Ring = true
  · obtain ⟨c, hc⟩ := reads_txInUndo_empty keys
    rw [if_pos hring] at hundo
    subst hundo
    refine ⟨by simp, tx.vin.map (fun _ => c), by simp [hring], ?_⟩
    rw [forall₂_map_left_iff, forall₂_map_right_iff, forall₂_same]
    exact fun _ _ => hc
  · rw [if_neg hring] at hundo
    refine ⟨?_, undo, by simp [hring], forall₂_same.mpr fun c hc =>
      lossless_txInUndo keys (undo_stored hview hundo c hc)⟩
    have := congrArg List.length hundo
    simpa [Transaction.prevouts] using this.symm

end Transactions

section Blocks

variable {rules : Rules} {committed : Finset Point} {pindex : BlockIndex}

/-- The transactions behind the coinbase are undone from the undo data that they wrote. -/
theorem disconnectTxs_connectTxs (keys : PubKeys) (enforce : Bool) {txs : List Transaction}
    {p p' : Progress} (hpos : 0 < pindex.nHeight)
    (htxs : ∀ tx ∈ txs, TxSound tx ∧ tx.isCoinBase = false) (hview : ViewStored p.view)
    (h : connectTxs rules committed pindex false txs p = .ok p') :
    ∃ undo vtxundo, p'.undo = p.undo ++ undo ∧
      List.Forall₂ (Codec.vector maxSize (txInUndo keys)).Reads undo vtxundo ∧
      undo.length = txs.length ∧
      disconnectTxs rules.crypto pindex.nHeight enforce (txs.zip (vtxundo.map some))
        ⟨p'.view, true⟩ = .ok ⟨p.view, true⟩ := by
  induction txs generalizing p with
  | nil =>
    simp only [connectTxs, Except.ok.injEq] at h
    subst h
    exact ⟨[], [], by simp, .nil, rfl, rfl⟩
  | cons tx txs ih =>
    simp only [connectTxs, bind_ok] at h
    obtain ⟨q, hq, hrest⟩ := h
    obtain ⟨⟨undo, hupdate, hundo⟩, -⟩ := connectTx_ok hq
    simp only [Bool.false_eq_true, if_false] at hundo
    obtain ⟨hsound, hcb⟩ := htxs tx mem_cons_self
    obtain ⟨hlen, vprevout, hfits, hreads⟩ := undoFits_of_updateCoins keys hview hcb hupdate
    obtain ⟨undos, vtxundo, hundos, hall, hcount, hback⟩ := ih
      (fun t ht => htxs t (mem_cons_of_mem _ ht))
      (viewStored_updateCoins hsound hpos pindex.height_lt hupdate hview) hrest
    refine ⟨undo :: undos, vprevout :: vtxundo, by rw [hundos, hundo, append_assoc]; rfl,
      .cons ?_ hall, by rw [length_cons, length_cons, hcount], ?_⟩
    · have hin := (length_le_serializeNoWitness tx).1
      have hsize := hsound.sized
      refine Codec.reads_vector ?_ (by omega) hreads
      rw [maxSize]
      omega
    · rw [map_cons, zip_cons_cons, disconnectTxs, hback]
      exact disconnectTx_updateCoins hview hcb hupdate hfits

/-- The transactions of a whole block are undone. -/
theorem disconnectTxs_block (keys : PubKeys) (enforce : Bool) {cb : Transaction}
    {txs : List Transaction} {p p' : Progress} (hpos : 0 < pindex.nHeight)
    (hcb : cb.isCoinBase = true) (hsound : ∀ tx ∈ cb :: txs, TxSound tx)
    (htxs : ∀ tx ∈ txs, tx.isCoinBase = false) (hlen : txs.length ≤ maxSize)
    (hview : ViewStored p.view) (hp : p.undo = [])
    (hfree : ∀ o, createdCoins rules.crypto cb pindex.nHeight o ≠ none → p.view o = none)
    (h : connectTxs rules committed pindex true (cb :: txs) p = .ok p') :
    ∃ vtxundo, (blockUndo keys).Reads p'.undo vtxundo ∧ vtxundo.length = txs.length ∧
      disconnectTxs rules.crypto pindex.nHeight enforce
        ((cb :: txs).zip (none :: vtxundo.map some)) ⟨p'.view, true⟩ = .ok ⟨p.view, true⟩ := by
  simp only [connectTxs, bind_ok] at h
  obtain ⟨q, hq, hrest⟩ := h
  obtain ⟨⟨cbUndo, hupdate, hundo⟩, -⟩ := connectTx_ok hq
  obtain ⟨undo, vtxundo, hundos, hreads, hcount, hback⟩ :=
    disconnectTxs_connectTxs keys enforce hpos
      (fun tx htx => ⟨hsound tx (mem_cons_of_mem _ htx), htxs tx htx⟩)
      (viewStored_updateCoins (hsound cb mem_cons_self) hpos pindex.height_lt hupdate hview)
      hrest
  have hall : p'.undo = undo := by
    rw [hundos, hundo, if_pos rfl, hp, nil_append]
  refine ⟨vtxundo, ?_, by rw [← hreads.length_eq, hcount], ?_⟩
  · rw [hall]
    have h64 : maxSize < 2 ^ 64 := by decide
    exact Codec.reads_vector (by omega) (by omega) hreads
  · rw [zip_cons_cons, disconnectTxs, hback]
    exact disconnectTx_coinbase hcb hupdate hfree

theorem viewStored_connectBlock {tip : CoinsTip} {store : Store} {c : Connected}
    (h : connectBlock rules false block pindex tip store = .ok c) (hview : ViewStored tip.coins) :
    ViewStored c.tip.coins := by
  rcases connectBlock_ok h with ⟨-, -, -, rfl⟩ | ⟨p, hconn⟩
  · exact hview
  have hpos : 0 < pindex.nHeight := length_pos_iff.mpr hconn.parent
  have hinv := connectTxs_invariant
    (fun rest q => (∀ tx ∈ rest, TxSound tx) ∧ ViewStored q.view)
    (fun first tx rest q q' hq hinv => by
      obtain ⟨undo, hupdate, -⟩ := hq.update
      obtain ⟨hsound, hrest⟩ := forall_mem_cons.mp hinv.1
      exact ⟨hrest, viewStored_updateCoins hsound hpos pindex.height_lt hupdate hinv.2⟩)
    hconn.loop ⟨hconn.checked.sound, hview⟩
  rw [hconn.result]
  exact hinv.2

/-- Outputs that the check of a block has found free of unspent coins. -/
theorem free_of_not_overwrites {crypto : Crypto} (h : ¬ overwrites crypto view block)
    (htx : tx ∈ block.vtx) (nHeight : ℕ) {o : OutPoint}
    (ho : createdCoins crypto tx nHeight o ≠ none) : view o = none := by
  obtain ⟨c, hc⟩ := ne_none_iff_exists'.mp ho
  obtain ⟨hhash, -, out, hout, -⟩ := createdFrom_some hc
  by_contra hne
  refine h ⟨tx, htx, o.n, mem_range.mpr (List.getElem?_eq_some_iff.mp hout).1, ?_⟩
  rw [← hhash]
  exact isSome_iff_ne_none.mpr hne

/-- The coins and the best block behind a connected block go back to those before it, with the
undo data that it left on disk and whatever the store holds by then. -/
theorem disconnectBlock_of_connected (keys : PubKeys) {tip : CoinsTip} {store : Store}
    {c : Connected} {undo : BlockUndo} (hview : ViewStored tip.coins) (hbip30 : enforceBIP30 pindex)
    (h : connectBlock rules false block pindex tip store = .ok c) (hundo : c.undo = some undo)
    (store' : Store) :
    disconnectBlock rules.crypto keys block pindex
        (some (writeBlockUndo rules.crypto keys pindex.prevHash undo)) c.tip store' =
      .ok ⟨true, tip, uncommitBlockKIs pindex.hash store'⟩ := by
  rcases connectBlock_ok h with ⟨-, -, -, rfl⟩ | ⟨p, hconn⟩
  · simp at hundo
  obtain ⟨-, -, hchecked, hprev, hparent, hover, hloop, rfl⟩ := id hconn
  obtain ⟨cb, txs, hvtx, hcb, htxs⟩ := hchecked.coinbase
  obtain ⟨prev, rest, hanc⟩ := exists_cons_of_ne_nil hparent
  rw [some.injEq] at hundo
  subst hundo
  have hlen : txs.length ≤ maxSize := by
    have hsized := hchecked.sized
    rw [hvtx, length_cons] at hsized
    rw [maxSize]
    omega
  rw [hvtx] at hloop
  obtain ⟨vtxundo, hreads, hcount, hback⟩ := disconnectTxs_block keys (enforceMatch pindex)
    (length_pos_iff.mpr hparent) hcb (hvtx ▸ hchecked.sound) htxs hlen hview rfl
    (fun o => free_of_not_overwrites (hover hbip30) (hvtx ▸ mem_cons_self) pindex.nHeight)
    hloop
  have hfile := @readBlockUndo_writeBlockUndo rules.crypto keys prev _ _ hreads
  have hbest : pindex.prevHash = prev := by
    rw [BlockIndex.prevHash, hanc]
    rfl
  refine disconnectBlock_ok.mpr ⟨_, prev, rest, vtxundo, _, rfl, hanc, hbest ▸ hfile,
    by rw [hcount, hvtx, length_cons], hvtx ▸ hback, ?_⟩
  rw [← hbest, hprev]

/-- A block that was connected is disconnected cleanly with the undo data that it left on disk.
The coins, the best block and the key images in memory are those from before. The file of key
images is written anew from them if the block had any. -/
theorem disconnectBlock_connectBlock (keys : PubKeys) {block : Block} {tip : CoinsTip}
    {store : Store} {c : Connected} {undo : BlockUndo} (hview : ViewStored tip.coins)
    (hfree : pindex.hash ∉ store.images.buckets) (hbip30 : enforceBIP30 pindex)
    (h : connectBlock rules false block pindex tip store = .ok c) (hundo : c.undo = some undo) :
    ∃ store', disconnectBlock rules.crypto keys block pindex
        (some (writeBlockUndo rules.crypto keys pindex.prevHash undo)) c.tip c.store =
      .ok ⟨true, tip, store'⟩ ∧ store'.images = store.images ∧
      store' = if block.keyImages = [] then store else rewriteFile store := by
  have hback := disconnectBlock_of_connected keys hview hbip30 h hundo c.store
  rcases connectBlock_ok h with ⟨-, -, -, rfl⟩ | ⟨p, hconn⟩
  · simp at hundo
  obtain ⟨hkis, hnd, hfresh⟩ := hconn.images
  have hstore := uncommitBlockKIs_commitBlockKIs hfree hnd hfresh
  obtain rfl := hconn.result
  refine ⟨_, hback.trans (by rw [hkis, hstore]), ?_, rfl⟩
  split <;> simp

end Blocks

section Sample

/-- Two bytes from a number, padded to the length of a hash. -/
def sampleDigest (n : ℕ) : Uint256 :=
  ⟨UInt8.ofNat n :: UInt8.ofNat (n / 256) :: List.replicate 30 0, rfl⟩

/-- Toy primitives for examples: the sum of the bytes as the hash of all but hashes, and keys that
are their own key images. -/
def sampleCrypto : Crypto where
  sha256 bytes := if h : bytes.length = 32 then ⟨bytes, h⟩
    else sampleDigest (bytes.foldl (fun n b => n + b.toNat) 0)
  verifyMultiLayer members sig _ := sig.keyImage ∈ members.map Prod.fst
  subtractCommitments c _ := some c
  commitTo _ := some zeroPoint
  verifyRangeProof _ _ _ := true
  verifySumZero _ _ _ := true

def sampleHeader (n : ℕ) : Bytes 80 := ⟨UInt8.ofNat n :: List.replicate 79 0, rfl⟩

def sampleHash (n : ℕ) : BlockHash := sampleCrypto.hash256 (sampleHeader n).toList

/-- Block 0 is the genesis block, and no block with more than a coinbase passes for it. -/
def sampleRules : Rules where
  crypto := sampleCrypto
  hashGenesisBlock := sampleHash 0
  checkBlockHeader _ _ _ := .ok ()
  checkMerkleRoot block := rejectIf
    (sampleCrypto.hash256 block.header.toList = sampleHash 0 ∧ block.vtx.length ≠ 1)
    (.invalid "bad-txnmrklroot")
  legacySigOpCount _ := 0
  transactionSigOpCost _ _ _ := 0
  sequenceLocks _ _ _ := true
  scriptChecks _ := false
  checkInputScripts _ _ _ := .ok ()
  blockSubsidy _ := 50 * coin
  isFinalTx _ _ _ := true
  checkWitness _ _ := .ok ()

/-- No full keys, so that no script is compressed to one. -/
def samplePubKeys : PubKeys where
  isFullyValid _ := false
  decompress _ := none
  decompress_compressed _ _ h := absurd h Bool.false_ne_true

def sampleCoinbase (script : Script) : Transaction where
  version := 2
  vin := [⟨⟨nullHash, 0xFFFFFFFF⟩, script, 0, []⟩]
  vout := [⟨0, []⟩]
  nLockTime := 0
  ctBundle := ⟨[], [], [], 0⟩

def sampleOutput (key : UInt8) : CTOutput :=
  ⟨zeroPoint, [0], [], zeroPoint, .replicate 33 key⟩

/-- A direct spend to a one-time key. -/
def sampleDirect (o : PrevoutRef) (key : UInt8) : Transaction where
  version := pricoinCTVersion
  vin := [⟨o, [], 0, []⟩]
  vout := [⟨0, []⟩]
  nLockTime := 0
  ctBundle := ⟨[zeroPoint], [], [sampleOutput key], 0⟩

def sampleSignature (image : UInt8) : Signature :=
  { emptySignature with
    keyImage := .replicate 33 image, s := [.replicate 32 0] }

/-- A ring spend with a ring of one member, to a one-time key. -/
def sampleRing (ref : PrevoutRef) (image key : UInt8) : Transaction where
  version := pricoinCTVersion
  vin := [⟨ref, [], 0, []⟩]
  vout := [⟨0, []⟩]
  nLockTime := 0
  ctBundle := ⟨[], [⟨[ref], zeroPoint, sampleSignature image⟩], [sampleOutput key], 0⟩

def sampleBlock (n : ℕ) (txs : List Transaction) : Block := ⟨sampleHeader n, txs⟩

def sampleIndex : BlockIndex := ⟨sampleHash 1, [sampleHash 0], by decide +kernel, by decide⟩

def samplePoint : PrevoutRef := ⟨.replicate 32 7, 0⟩

/-- A view with one confidential coin. -/
def sampleView : CoinsView :=
  Function.update (fun _ => none) samplePoint.outPoint
    (some (.confidential ⟨0, []⟩ 5 false (sampleOutput 1)))

theorem sampleView_stored : ViewStored sampleView := by
  intro o c hc
  unfold sampleView at hc
  by_cases ho : o = samplePoint.outPoint
  · subst ho
    rw [update_self, some.injEq] at hc
    subst hc
    exact ⟨by decide, by decide, by decide, by decide, by decide⟩
  · rw [update_of_ne ho] at hc
    contradiction

/-- The block spends a coin directly and the output of that again by ring. -/
def sampleMixedBlock : Block :=
  sampleBlock 1 [sampleCoinbase [1, 0], sampleDirect samplePoint 2,
    sampleRing ⟨sampleCrypto.txid (sampleDirect samplePoint 2), 0⟩ 2 3]

theorem disconnectBlock_connectBlock_mixed :
    ∃ c undo, connectBlock sampleRules false sampleMixedBlock sampleIndex
        ⟨sampleView, sampleHash 0⟩ ⟨.empty, none, true⟩ = .ok c ∧ c.undo = some undo ∧
      ∃ store', disconnectBlock sampleCrypto samplePubKeys sampleMixedBlock sampleIndex
          (some (writeBlockUndo sampleCrypto samplePubKeys sampleIndex.prevHash undo))
          c.tip c.store =
        .ok ⟨true, ⟨sampleView, sampleHash 0⟩, store'⟩ ∧ store'.images = .empty := by
  have hrun : succeeds (fun c => c.undo.isSome) (connectBlock sampleRules false sampleMixedBlock
      sampleIndex ⟨sampleView, sampleHash 0⟩ ⟨.empty, none, true⟩) = true := by
    decide +kernel
  obtain ⟨c, hc, hsome⟩ := succeeds_iff.mp hrun
  obtain ⟨undo, hundo⟩ := isSome_iff_exists.mp hsome
  obtain ⟨store', hback, himages, -⟩ := disconnectBlock_connectBlock samplePubKeys sampleView_stored
    (by decide) (by decide +kernel) hc hundo
  exact ⟨c, undo, hc, hundo, store', hback, himages⟩

end Sample

end Pricoin.ConnectDisconnect
