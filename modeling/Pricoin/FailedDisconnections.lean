import Pricoin.ActiveChain

/-!
What a call of `DisconnectTip` leaves behind. Coins are undone in a scratch view,
which a failed call drops. Key images are taken out of the global store by
`DisconnectBlock` itself, before its result is known to the caller: a block that
does not match its coins keeps its place as the tip and loses its key images.
-/
namespace Pricoin.FailedDisconnections

open Checks KeyImageFile KeyImageStore TaggedSets Transactions Coins TxChecks BlockConnection
open UndoCodec BlockDisconnection ConnectDisconnect ActiveChain

inductive DisconnectResult where
  | ok
  | unclean
  | failed
  deriving DecidableEq, Repr

section Return

variable (rules : Rules) (keys : PubKeys)

/-- `DisconnectTip` as it returns: what `DisconnectBlock` has returned, and the state. A failed
assertion does not return. -/
def disconnectTipReturning (s : Chainstate) : Option (DisconnectResult × Chainstate) :=
  match s.chain with
  | [] => none
  | (pindexDelete, block) :: rest =>
    if pindexDelete.ancestors = [] ∨ s.tip.bestBlock ≠ pindexDelete.hash then none
    else
      match disconnectBlock rules.crypto keys block pindexDelete (s.undoFiles pindexDelete.hash)
        s.tip s.store with
      | .error .crash => none
      | .error .failed => some (.failed, s)
      | .ok d =>
        if d.fClean then some (.ok, ⟨rest, d.tip, d.store, s.undoFiles⟩)
        -- the scratch view goes out of scope, the global store is as `DisconnectBlock` left it
        else some (.unclean, { s with store := d.store })

variable {rules keys}

/-- The successful calls are those of the step on the chain. -/
theorem disconnectTipReturning_ok {s s' : Chainstate} :
    disconnectTipReturning rules keys s = some (.ok, s') ↔ disconnectTip rules keys s = .ok s' := by
  unfold disconnectTipReturning disconnectTip
  cases s.chain with
  | nil => simp
  | cons e rest =>
    obtain ⟨pindexDelete, block⟩ := e
    simp only [bind_ok, rejectIf_ok, Except.ok.injEq]
    split_ifs with hassert
    · simp [hassert]
    · generalize disconnectBlock rules.crypto keys block pindexDelete
        (s.undoFiles pindexDelete.hash) s.tip s.store = outcome
      rcases outcome with (_ | _) | d
      · simp
      · simp
      · cases hclean : d.fClean <;> simp [hclean, hassert]

/-- What a call that returns has done with the tip block. -/
theorem disconnectTipReturning_cases {s s' : Chainstate} {result : DisconnectResult}
    (h : disconnectTipReturning rules keys s = some (result, s')) (hfail : result ≠ .ok) :
    ∃ pindexDelete block rest, s.chain = (pindexDelete, block) :: rest ∧
      ((disconnectBlock rules.crypto keys block pindexDelete (s.undoFiles pindexDelete.hash)
          s.tip s.store = .error .failed ∧ s' = s) ∨
        ∃ d, disconnectBlock rules.crypto keys block pindexDelete (s.undoFiles pindexDelete.hash)
          s.tip s.store = .ok d ∧ s' = { s with store := d.store }) := by
  unfold disconnectTipReturning at h
  split at h
  · contradiction
  · rename_i pindexDelete block rest hchain
    refine ⟨pindexDelete, block, rest, hchain, ?_⟩
    split at h
    · contradiction
    · split at h
      · contradiction
      · rename_i hblock
        simp only [Option.some.injEq, Prod.mk.injEq] at h
        exact .inl ⟨hblock, h.2.symm⟩
      · rename_i d hblock
        split at h
        · simp only [Option.some.injEq, Prod.mk.injEq] at h
          exact absurd h.1.symm hfail
        · simp only [Option.some.injEq, Prod.mk.injEq] at h
          exact .inr ⟨d, hblock, h.2.symm⟩

end Return

section Lacking

/-- The outpoints with a coin once the spent coins are put back. -/
def putBack (spent : List (OutPoint × Coin)) (held : OutPoint → Prop) (o : OutPoint) : Prop :=
  held o ∨ ∃ undo, (o, undo) ∈ spent ∧ isUnspendable undo.out.scriptPubKey = false

/-- A coin to put back has no height and no other output of its transaction has a coin. -/
def Bare (held : OutPoint → Prop) (undo : Coin) (out : OutPoint) : Prop :=
  undo.nHeight = 0 ∧ ∀ n < maxOutputsPerBlock, ¬ held ⟨out.hash, n⟩

/-- One of the inputs, put back last to first, is such a coin. -/
def InputsLacking (held : OutPoint → Prop) : List (OutPoint × Coin) → Prop
  | [] => False
  | (out, undo) :: rest => InputsLacking held rest ∨ Bare (putBack rest held) undo out

variable (crypto : Crypto)

/-- The coins that undoing a transaction puts back. -/
def spentBy (tx : Transaction) : Option (List Coin) → List (OutPoint × Coin)
  | none => []
  | some vprevout => if tx.isV4Ring then [] else tx.prevouts.zip vprevout

/-- The outpoints with a coin before the transactions, by the coins behind them. -/
def heldBefore (view : CoinsView) (nHeight : ℕ) :
    List (Transaction × Option (List Coin)) → OutPoint → Prop
  | [], o => view o ≠ none
  | (tx, txundo) :: rest, o => putBack (spentBy tx txundo)
      (fun o => heldBefore view nHeight rest o ∧ createdCoins crypto tx nHeight o = none) o

/-- The undo data of some transaction has not one coin for each input, or has one that cannot be
put back. -/
def TxsLacking (view : CoinsView) (nHeight : ℕ) : List (Transaction × Option (List Coin)) → Prop
  | [] => False
  | (tx, txundo) :: rest => TxsLacking view nHeight rest ∨
      (∃ vprevout, txundo = some vprevout ∧ vprevout.length ≠ tx.vin.length) ∨
      InputsLacking
        (fun o => heldBefore crypto view nHeight rest o ∧ createdCoins crypto tx nHeight o = none)
        (spentBy tx txundo)

variable (keys : PubKeys)

/-- The undo record of a block is missing, cannot be read or does not fit the block. -/
def UndoLacking (block : Block) (pindex : BlockIndex) (undoFile : Option (List UInt8))
    (view : CoinsView) : Prop :=
  ∀ file vtxundo, undoFile = some file →
    readBlockUndo crypto keys pindex.prevHash file = some vtxundo →
    vtxundo.length + 1 ≠ block.vtx.length ∨
      TxsLacking crypto view pindex.nHeight (block.vtx.zip (none :: vtxundo.map some))

end Lacking

section Outcomes

variable {crypto : Crypto}

/-- A view has coins at these outpoints. -/
def Holds (view : CoinsView) (held : OutPoint → Prop) : Prop := ∀ o, view o ≠ none ↔ held o

theorem Holds.spendCoin {view : CoinsView} {held : OutPoint → Prop} (h : Holds view held)
    (out : OutPoint) : Holds (view.spendCoin out) (fun o => held o ∧ o ≠ out) := by
  intro o
  by_cases ho : o = out
  · simp [CoinsView.spendCoin, ho]
  · rw [CoinsView.spendCoin, Function.update_of_ne ho, h o]
    exact (and_iff_left ho).symm

theorem Holds.congr {view : CoinsView} {held held' : OutPoint → Prop} (h : Holds view held)
    (heq : ∀ o, held o ↔ held' o) : Holds view held' := fun o => (h o).trans (heq o)

/-- Exactly the outputs that make coins are taken out. -/
theorem Holds.removeOutputs {tx : Transaction} {nHeight i : ℕ} {exempt : Bool} {outs : List TxOut}
    {s : Restoring} {held : OutPoint → Prop} (h : Holds s.view held) :
    Holds (removeOutputs crypto tx nHeight exempt i outs s).view
      (fun o => held o ∧ createdFrom crypto tx nHeight i outs o = none) := by
  induction outs generalizing i s held with
  | nil =>
    rw [BlockDisconnection.removeOutputs]
    exact h.congr fun o => by rw [createdFrom_nil, and_iff_left rfl]
  | cons out outs ih =>
    have hhead := @createdFrom_head crypto tx nHeight i out outs
    have htail := @createdFrom_tail crypto tx nHeight i out outs
    have hown := @createdFrom_own crypto tx nHeight i outs
    rw [BlockDisconnection.removeOutputs]
    split
    · rename_i hunspendable
      refine (ih h).congr fun o => ?_
      by_cases ho : o = ⟨crypto.txid tx, i⟩
      · rw [ho, hhead, if_pos hunspendable, hown]
      · rw [htail ho]
    · rename_i hspendable
      refine (ih (h.spendCoin ⟨crypto.txid tx, i⟩)).congr fun o => ?_
      by_cases ho : o = ⟨crypto.txid tx, i⟩
      · simp [ho, hhead, hspendable]
      · rw [htail ho, and_iff_left ho]

theorem accessByTxid_eq_none {view : CoinsView} {held : OutPoint → Prop} (h : Holds view held)
    (txid : Txid) :
    accessByTxid view txid = none ↔ ∀ n < maxOutputsPerBlock, ¬ held ⟨txid, n⟩ := by
  simp only [accessByTxid, List.findSome?_eq_none_iff, List.mem_range]
  refine forall₂_congr fun n _ => ?_
  rw [← h, not_not]

theorem undoMetadata_ends {undo : Coin} {out : OutPoint} {view : CoinsView}
    {held : OutPoint → Prop} (h : Holds view held) :
    Ends (fun _ => Bare held undo out) (fun c => ¬ Bare held undo out ∧ c.out = undo.out)
      (undoMetadata undo view out) := by
  unfold undoMetadata
  split
  · rename_i hheight
    cases haccess : accessByTxid view out.hash with
    | none => exact ⟨hheight, (accessByTxid_eq_none h out.hash).mp haccess⟩
    | some alternate =>
      refine ⟨fun hbare => ?_, rfl⟩
      rw [(accessByTxid_eq_none h out.hash).mpr hbare.2] at haccess
      contradiction
  · rename_i hheight
    exact ⟨fun hbare => hheight hbare.1, rfl⟩

theorem Holds.addCoin {view view' : CoinsView} {held : OutPoint → Prop} (h : Holds view held)
    {out : OutPoint} {c undo : Coin} {overwrite : Bool} (hout : c.out = undo.out)
    (hadd : view.addCoin out c overwrite = some view') :
    Holds view' (putBack [(out, undo)] held) := by
  unfold CoinsView.addCoin at hadd
  rw [hout] at hadd
  split at hadd
  · rename_i hunspendable
    obtain rfl := Option.some.inj hadd
    exact h.congr fun o => by simp +contextual [putBack, hunspendable]
  · rename_i hspendable
    split at hadd
    · contradiction
    · obtain rfl := Option.some.inj hadd
      intro o
      by_cases ho : o = out
      · simp [ho, putBack, hspendable]
      · rw [Function.update_of_ne ho, h o]
        simp [putBack, ho]

/-- A computation that fails does so for lack of data, and one that does not stop lacks nothing and
ends with coins at the given outpoints. -/
def Undoes (lacking : Prop) (held : OutPoint → Prop) : Except DisconnectError Restoring → Prop :=
  Ends (fun e => e = .failed → lacking) (fun s => ¬ lacking ∧ Holds s.view held)

theorem Undoes.bind {lacking lacking' : Prop} {held held' : OutPoint → Prop}
    {x : Except DisconnectError Restoring} {f : Restoring → Except DisconnectError Restoring}
    (hx : Undoes lacking held x)
    (hf : ∀ s, Holds s.view held → Undoes lacking' held' (f s)) :
    Undoes (lacking ∨ lacking') held' (x >>= f) := by
  cases x with
  | error e => exact fun he => .inl (hx he)
  | ok s =>
    have hlast := hf s hx.2
    change Undoes _ _ (f s)
    cases hfs : f s with
    | error e =>
      rw [hfs] at hlast
      exact fun he => .inr (hlast he)
    | ok t =>
      rw [hfs] at hlast
      exact ⟨not_or.mpr ⟨hx.1, hlast.1⟩, hlast.2⟩

theorem Undoes.congr {lacking lacking' : Prop} {held held' : OutPoint → Prop}
    {x : Except DisconnectError Restoring} (h : Undoes lacking held x)
    (hlacking : lacking ↔ lacking') (hheld : ∀ o, held o ↔ held' o) : Undoes lacking' held' x := by
  obtain rfl : lacking = lacking' := propext hlacking
  obtain rfl : held = held' := funext fun o => propext (hheld o)
  exact h

theorem undoes_applyTxInUndo {undo : Coin} {out : OutPoint} {s : Restoring}
    {held : OutPoint → Prop} (h : Holds s.view held) :
    Undoes (Bare held undo out) (putBack [(out, undo)] held) (applyTxInUndo undo out s) := by
  have hmeta := @undoMetadata_ends undo out s.view held h
  unfold applyTxInUndo
  cases hundo : undoMetadata undo s.view out with
  | error e =>
    rw [hundo] at hmeta
    exact fun _ => hmeta
  | ok c =>
    rw [hundo] at hmeta
    change Ends _ _ (rejectIf (c.out.nValue = -1) DisconnectError.crash >>= fun _ => _)
    refine Ends.bind (ends_rejectIf fun hcrash => nomatch hcrash) fun _ _ => ?_
    split
    · exact fun hcrash => nomatch hcrash
    · rename_i view' hadd
      exact ⟨hmeta.1, h.addCoin hmeta.2 hadd⟩

theorem undoes_restoreInputs {spent : List (OutPoint × Coin)} {s : Restoring}
    {held : OutPoint → Prop} (h : Holds s.view held) :
    Undoes (InputsLacking held spent) (putBack spent held) (restoreInputs spent s) := by
  induction spent with
  | nil => exact ⟨id, h.congr fun o => by simp [putBack]⟩
  | cons e rest ih =>
    obtain ⟨out, undo⟩ := e
    rw [restoreInputs]
    refine (ih.bind fun t ht => undoes_applyTxInUndo ht).congr Iff.rfl fun o => ?_
    simp only [putBack, List.mem_cons, List.not_mem_nil, or_false, Prod.mk.injEq, or_and_right,
      exists_or, or_assoc]
    exact or_congr_right or_comm

theorem undoes_disconnectTx {tx : Transaction} {txundo : Option (List Coin)} {nHeight : ℕ}
    {enforce : Bool} {s : Restoring} {held : OutPoint → Prop} (h : Holds s.view held) :
    Undoes ((∃ vprevout, txundo = some vprevout ∧ vprevout.length ≠ tx.vin.length) ∨
        InputsLacking (fun o => held o ∧ createdCoins crypto tx nHeight o = none)
          (spentBy tx txundo))
      (putBack (spentBy tx txundo) (fun o => held o ∧ createdCoins crypto tx nHeight o = none))
      (disconnectTx crypto nHeight enforce tx txundo s) := by
  have hremoved := @Holds.removeOutputs crypto tx nHeight 0 (tx.isCoinBase && !enforce) tx.vout s
    held h
  unfold disconnectTx
  cases txundo with
  | none =>
    refine ⟨by simp [spentBy, InputsLacking], hremoved.congr fun o => ?_⟩
    simp [putBack, spentBy, createdCoins]
  | some vprevout =>
    simp only [Option.some.injEq, exists_eq_left', spentBy]
    by_cases hlen : vprevout.length = tx.vin.length
    · have hpass : rejectIf (vprevout.length ≠ tx.vin.length) DisconnectError.failed = .ok () :=
        rejectIf_ok.mpr (not_not.mpr hlen)
      rw [hpass]
      refine Undoes.congr ?_ (or_iff_right (not_not.mpr hlen)).symm fun o => Iff.rfl
      change Undoes _ _ (if tx.isV4Ring then _ else _)
      by_cases hring : tx.isV4Ring
      · rw [if_pos hring, if_pos hring]
        exact ⟨id, hremoved.congr fun o => by simp [putBack, createdCoins]⟩
      · rw [if_neg hring, if_neg hring]
        exact undoes_restoreInputs hremoved
    · rw [rejectIf, if_pos hlen]
      exact fun _ => .inl hlen

theorem undoes_disconnectTxs {view : CoinsView} {nHeight : ℕ} {enforce clean : Bool}
    (txs : List (Transaction × Option (List Coin))) :
    Undoes (TxsLacking crypto view nHeight txs) (heldBefore crypto view nHeight txs)
      (disconnectTxs crypto nHeight enforce txs ⟨view, clean⟩) := by
  induction txs with
  | nil => exact ⟨id, fun o => Iff.rfl⟩
  | cons e rest ih =>
    obtain ⟨tx, txundo⟩ := e
    rw [disconnectTxs]
    exact ih.bind fun t ht => undoes_disconnectTx ht

variable {keys : PubKeys} {block : Block} {pindex : BlockIndex} {undoFile : Option (List UInt8)}
variable {tip : CoinsTip} {store : Store}

theorem undoLacking_of_failed
    (h : disconnectBlock crypto keys block pindex undoFile tip store = .error .failed) :
    UndoLacking crypto keys block pindex undoFile tip.coins := by
  rintro file vtxundo rfl hread
  unfold disconnectBlock at h
  cases hanc : pindex.ancestors with
  | nil => simp [hanc] at h
  | cons prev rest =>
    have hbest : pindex.prevHash = prev := by
      rw [BlockIndex.prevHash, hanc]
      rfl
    have hundoes := @undoes_disconnectTxs crypto tip.coins pindex.nHeight (enforceMatch pindex)
      true (block.vtx.zip (none :: vtxundo.map some))
    rw [hbest] at hread
    simp only [hanc, hread, bind_error, rejectIf_error] at h
    obtain ⟨hlen, -⟩ | ⟨-, -, hstop | ⟨s, -, hok⟩⟩ := h
    · exact .inl hlen
    · rw [hstop] at hundoes
      exact .inr (hundoes rfl)
    · contradiction

theorem not_undoLacking_of_ok {d : Disconnected}
    (h : disconnectBlock crypto keys block pindex undoFile tip store = .ok d) :
    ¬ UndoLacking crypto keys block pindex undoFile tip.coins := by
  obtain ⟨file, prev, rest, vtxundo, s, rfl, hanc, hread, hlen, hs, -⟩ := disconnectBlock_ok.mp h
  have hbest : pindex.prevHash = prev := by
    rw [BlockIndex.prevHash, hanc]
    rfl
  have hundoes := @undoes_disconnectTxs crypto tip.coins pindex.nHeight (enforceMatch pindex) true
    (block.vtx.zip (none :: vtxundo.map some))
  rw [hs] at hundoes
  intro hlacking
  rcases hlacking file vtxundo rfl (hbest ▸ hread) with hcount | htxs
  · exact hcount hlen
  · exact hundoes.1 htxs

end Outcomes

section Failure

variable (rules : Rules) (keys : PubKeys)

/-- The tip block has no key images in the store, or its undo record is of no use. -/
def TipUnmarked (s : Chainstate) : Prop :=
  ∀ pindex block, s.chain.head? = some (pindex, block) →
    pindex.hash ∉ s.store.images.buckets ∨
      UndoLacking rules.crypto keys block pindex (s.undoFiles pindex.hash) s.tip.coins

variable {rules keys}

theorem uncommitBlockKIs_eq_iff {store : Store} {blockHash : BlockHash} :
    uncommitBlockKIs blockHash store = store ↔ blockHash ∉ store.images.buckets := by
  constructor
  · intro heq hbucket
    have himages := congrArg Store.images heq
    rw [uncommitBlockKIs_images, if_pos hbucket] at himages
    have hgone : blockHash ∉ (store.images.dropBucket blockHash).buckets := by
      simp [TaggedSet.dropBucket]
    rw [himages] at hgone
    exact hgone hbucket
  · intro hbucket
    rw [uncommitBlockKIs, if_neg hbucket]

/-- A call of `DisconnectTip` that fails with the block changes nothing, of coins, chain and key
images, exactly when the tip block has no bucket in the store or its undo data is lacking. -/
theorem failed_disconnectTip_eq_iff {s s' : Chainstate} {result : DisconnectResult}
    (h : disconnectTipReturning rules keys s = some (result, s')) (hfail : result ≠ .ok) :
    s' = s ↔ TipUnmarked rules keys s := by
  obtain ⟨pindexDelete, block, rest, hchain, hcases⟩ := disconnectTipReturning_cases h hfail
  have hhead : s.chain.head? = some (pindexDelete, block) := by
    rw [hchain]
    rfl
  rcases hcases with ⟨hblock, rfl⟩ | ⟨d, hblock, rfl⟩
  · refine iff_of_true rfl fun pindex block' htip => .inr ?_
    obtain ⟨rfl, rfl⟩ := Prod.mk.inj (Option.some.inj (hhead.symm.trans htip))
    exact undoLacking_of_failed hblock
  · have hsound := not_undoLacking_of_ok hblock
    obtain ⟨-, -, -, -, -, -, -, -, -, -, rfl⟩ := disconnectBlock_ok.mp hblock
    have hstore : { s with store := uncommitBlockKIs pindexDelete.hash s.store } = s ↔
        pindexDelete.hash ∉ s.store.images.buckets :=
      ⟨fun heq => uncommitBlockKIs_eq_iff.mp (congrArg Chainstate.store heq),
        fun hbucket => by rw [uncommitBlockKIs_eq_iff.mpr hbucket]⟩
    rw [hstore]
    constructor
    · intro hbucket pindex block' htip
      obtain ⟨rfl, rfl⟩ := Prod.mk.inj (Option.some.inj (hhead.symm.trans htip))
      exact .inl hbucket
    · intro hunmarked
      exact (hunmarked pindexDelete block hhead).resolve_right hsound

end Failure

section Sample

/-- A chain of a genesis block, with one confidential coin. -/
def sampleBase : Chainstate :=
  ⟨[sampleActive 0 []], ⟨sampleView, sampleHash 0⟩, ⟨.empty, none, true⟩, fun _ => none⟩

/-- The coins have lost the output of a coinbase. -/
def loseCoinbase (s : Chainstate) : Chainstate :=
  { s with tip := ⟨s.tip.coins.spendCoin ⟨sampleCrypto.txid (sampleCoinbase [1, 0]), 0⟩,
    s.tip.bestBlock⟩ }

/-- The result of disconnecting the damaged tip, and whether a key image is committed before and
after. -/
def sampleOutcome (ki : Point) (s : Chainstate) : Option (DisconnectResult × Bool × Bool) :=
  (disconnectTipReturning sampleRules samplePubKeys (loseCoinbase s)).map fun r =>
    (r.1, isKeyImageCommitted ki s.store, isKeyImageCommitted ki r.2.store)

/-- The disconnection of a damaged block fails, and the block's key image is no longer committed. -/
theorem keyImage_lost_by_failed_disconnect :
    succeeds (fun s => sampleOutcome (.replicate 33 2) s = some (.unclean, true, false))
      (connectTip sampleRules samplePubKeys sampleIndex sampleMixedBlock sampleBase) = true := by
  decide +kernel

/-- A block without ring inputs. -/
def samplePlainBlock : Block :=
  sampleBlock 1 [sampleCoinbase [1, 0], sampleDirect samplePoint 2]

theorem failed_disconnectTip_eq_iff_plain :
    ∃ s, connectTip sampleRules samplePubKeys sampleIndex samplePlainBlock sampleBase = .ok s ∧
      disconnectTipReturning sampleRules samplePubKeys (loseCoinbase s) =
        some (.unclean, loseCoinbase s) := by
  have hrun : succeeds (fun s =>
      ((disconnectTipReturning sampleRules samplePubKeys (loseCoinbase s)).map Prod.fst =
        some .unclean) ∧ s.chain.head?.map (fun e => e.1.hash) = some sampleIndex.hash ∧
        sampleIndex.hash ∉ s.store.images.buckets)
      (connectTip sampleRules samplePubKeys sampleIndex samplePlainBlock sampleBase) = true := by
    decide +kernel
  obtain ⟨s, hs, hgood⟩ := succeeds_iff.mp hrun
  obtain ⟨hresult, hhead, hbucket⟩ := of_decide_eq_true hgood
  obtain ⟨⟨result, s'⟩, hreturn, hunclean⟩ := Option.map_eq_some_iff.mp hresult
  obtain rfl : result = .unclean := hunclean
  refine ⟨s, hs, hreturn.trans ?_⟩
  rw [(failed_disconnectTip_eq_iff hreturn (by decide)).mpr]
  intro pindex block htip
  have hhash : pindex.hash = sampleIndex.hash := by
    change s.chain.head? = some (pindex, block) at htip
    rw [htip] at hhead
    exact Option.some.inj hhead
  rw [hhash]
  exact .inl hbucket

end Sample

end Pricoin.FailedDisconnections
