import Pricoin.KeyImageStore
import Pricoin.TxChecks

/-!
Connecting a block to the coins view. The transactions are checked and applied one
by one against the view as the earlier ones of the block left it, while the
committed key images stay those before the block. The block's own key images are
collected on the way, refused when they repeat, and committed to the store after
every check has passed.
-/
namespace Pricoin.BlockConnection

open ByteStreams Codecs Checks KeyImageFile KeyImageStore Transactions Coins TxChecks List

variable {p : Progress} {block : Block} {c : Connected}

structure Block where
  header : Bytes 80
  vtx : List Transaction

/-- An entry of the block index with the hashes of its ancestors, the parent first. The index
has one entry for each hash and is a tree. -/
structure BlockIndex where
  hash : BlockHash
  ancestors : List BlockHash
  distinct : (hash :: ancestors).Nodup
  /-- Heights fit the bit field that coins keep them in. -/
  height_lt : ancestors.length < 2 ^ 30

namespace BlockIndex

def nHeight (pindex : BlockIndex) : ℕ := pindex.ancestors.length

/-- The hash of the parent, null for the genesis block. -/
def prevHash (pindex : BlockIndex) : BlockHash := pindex.ancestors.head?.getD nullHash

/-- The hash of the ancestor of the parent at a height. -/
def prevAncestor (pindex : BlockIndex) (height : ℕ) : Option BlockHash :=
  pindex.ancestors.reverse[height]?

end BlockIndex

inductive BlockError where
  | invalid (reason : String)
  /-- A failed assertion or an exception that nothing catches. -/
  | crash
  deriving DecidableEq, Repr

/-- Parts of validation that the state of coins and key images does not enter, and the
parameters of the network. -/
structure Rules where
  crypto : Crypto
  hashGenesisBlock : BlockHash
  checkBlockHeader : Bool → Block → ℕ → Except BlockError Unit
  checkMerkleRoot : Block → Except BlockError Unit
  legacySigOpCount : Transaction → ℕ
  transactionSigOpCost : Transaction → CoinsView → BlockIndex → ℕ
  sequenceLocks : Transaction → List ℕ → BlockIndex → Bool
  scriptChecks : BlockIndex → Bool
  checkInputScripts : Transaction → CoinsView → BlockIndex → Except BlockError Unit
  blockSubsidy : ℕ → ℤ
  isFinalTx : Transaction → Block → BlockIndex → Bool
  /-- Witness commitment and block weight. -/
  checkWitness : Block → BlockIndex → Except BlockError Unit

def maxBlockSigOpsCost : ℕ := 80000

def Block.keyImages (block : Block) : List Point := block.vtx.flatMap Transaction.keyImages

def Block.size (block : Block) : ℕ :=
  80 + (writeCompactSize block.vtx.length).length +
    (block.vtx.map (fun tx => (serializeNoWitness tx).length)).sum

def ofTx {α : Type} : Except TxReject α → Except BlockError α
  | .ok a => .ok a
  | .error e => .error (.invalid e.reason)

section CheckBlock

variable (rules : Rules)

def Block.getHash (block : Block) : BlockHash := rules.crypto.hash256 block.header.toList

def checkBlock (fCheckPOW fCheckMerkleRoot : Bool) (block : Block) (height : ℕ) :
    Except BlockError Unit := do
  rules.checkBlockHeader fCheckPOW block height
  (if fCheckMerkleRoot then rules.checkMerkleRoot block else .ok ())
  rejectIf (block.vtx = [] ∨ maxBlockWeight < block.vtx.length * witnessScaleFactor ∨
    maxBlockWeight < block.size * witnessScaleFactor) (.invalid "bad-blk-length")
  rejectIf (∀ tx ∈ block.vtx.head?, tx.isCoinBase = false) (.invalid "bad-cb-missing")
  rejectIf (∃ tx ∈ block.vtx.tail, tx.isCoinBase = true) (.invalid "bad-cb-multiple")
  checkAll (fun tx => ofTx (checkTransaction tx)) block.vtx
  rejectIf (maxBlockSigOpsCost < (block.vtx.map rules.legacySigOpCount).sum * witnessScaleFactor)
    (.invalid "bad-blk-sigops")

end CheckBlock

section Bip30

def bip30RepeatHash₁ : BlockHash :=
  ⟨[0x00, 0x00, 0x00, 0x00, 0x00, 0x0a, 0x4d, 0x0a, 0x39, 0x81, 0x61, 0xff, 0xc1, 0x63, 0xc5, 0x03,
    0x76, 0x3b, 0x1f, 0x43, 0x60, 0x63, 0x93, 0x93, 0xe0, 0xe4, 0xc8, 0xe3, 0x00, 0xe0, 0xca,
    0xec].reverse, rfl⟩

def bip30RepeatHash₂ : BlockHash :=
  ⟨[0x00, 0x00, 0x00, 0x00, 0x00, 0x07, 0x43, 0xf1, 0x90, 0xa1, 0x8c, 0x55, 0x77, 0xa3, 0xc2, 0xd2,
    0xa1, 0xf6, 0x10, 0xae, 0x96, 0x01, 0xac, 0x04, 0x6a, 0x38, 0x08, 0x4c, 0xcb, 0x7c, 0xd7,
    0x21].reverse, rfl⟩

/-- The two blocks of another chain that repeat coinbases. -/
def isBIP30Repeat (pindex : BlockIndex) : Prop :=
  (pindex.nHeight = 91842 ∧ pindex.hash = bip30RepeatHash₁) ∨
  (pindex.nHeight = 91880 ∧ pindex.hash = bip30RepeatHash₂)

instance (pindex : BlockIndex) : Decidable (isBIP30Repeat pindex) :=
  inferInstanceAs (Decidable ((pindex.nHeight = 91842 ∧ pindex.hash = bip30RepeatHash₁) ∨
    (pindex.nHeight = 91880 ∧ pindex.hash = bip30RepeatHash₂)))

def bip34Height : ℕ := 1

def bip34Hash : BlockHash := nullHash

def bip34ImpliesBip30Limit : ℕ := 1983702

def enforceBIP30 (pindex : BlockIndex) : Prop :=
  (¬ isBIP30Repeat pindex ∧ pindex.prevAncestor bip34Height ≠ some bip34Hash) ∨
  bip34ImpliesBip30Limit ≤ pindex.nHeight

instance (pindex : BlockIndex) : Decidable (enforceBIP30 pindex) :=
  inferInstanceAs (Decidable ((¬ isBIP30Repeat pindex ∧
    pindex.prevAncestor bip34Height ≠ some bip34Hash) ∨
    bip34ImpliesBip30Limit ≤ pindex.nHeight))

/-- A transaction of the block has an outpoint that is still unspent. -/
def overwrites (crypto : Crypto) (view : CoinsView) (block : Block) : Prop :=
  ∃ tx ∈ block.vtx, ∃ i ∈ List.range tx.vout.length, view.haveCoin ⟨crypto.txid tx, i⟩ = true

instance (crypto : Crypto) (view : CoinsView) (block : Block) :
    Decidable (overwrites crypto view block) :=
  inferInstanceAs (Decidable (∃ tx ∈ block.vtx, ∃ i ∈ List.range tx.vout.length,
    view.haveCoin ⟨crypto.txid tx, i⟩ = true))

end Bip30

section ConnectBlock

variable (rules : Rules)

/-- What the transaction loop has gathered. -/
structure Progress where
  view : CoinsView
  fees : ℤ
  sigOps : ℕ
  undo : List (List Coin)
  kis : List Point

/-- The checks of a transaction's inputs, with the fees so far. -/
def connectInputs (committed : Finset Point) (pindex : BlockIndex) (tx : Transaction)
    (p : Progress) : Except BlockError ℤ := do
  let txfee ← ofTx
    (if tx.version = pricoinCTVersion then
      verifyConfidentialContextual rules.crypto tx p.view committed pindex.nHeight
    else checkTxInputs tx p.view pindex.nHeight)
  rejectIf (¬ MoneyRange (p.fees + txfee)) (.invalid "bad-txns-accumulated-fee-outofrange")
  rejectIf (rules.sequenceLocks tx (tx.prevouts.map (fun o => ((p.view o).getD Coin.empty).nHeight))
    pindex = false) (.invalid "bad-txns-nonfinal")
  .ok (p.fees + txfee)

/-- One turn of the transaction loop. The coinbase leaves no undo data. -/
def connectTx (committed : Finset Point) (pindex : BlockIndex) (first : Bool) (tx : Transaction)
    (p : Progress) : Except BlockError Progress := do
  let fees ← (if tx.isCoinBase then .ok p.fees else connectInputs rules committed pindex tx p)
  let sigOps := p.sigOps + rules.transactionSigOpCost tx p.view pindex
  rejectIf (maxBlockSigOpsCost < sigOps) (.invalid "bad-blk-sigops")
  (if !tx.isCoinBase && rules.scriptChecks pindex && !tx.isV4Ring then
    rules.checkInputScripts tx p.view pindex
  else .ok ())
  match updateCoins rules.crypto tx pindex.nHeight p.view with
  | none => .error .crash
  | some (view, undo) => do
    rejectIf (¬ (p.kis ++ tx.keyImages).Nodup)
      (.invalid "bad-pct-double-spend-keyimage-intrablock")
    .ok ⟨view, fees, sigOps, if first then p.undo else p.undo ++ [undo], p.kis ++ tx.keyImages⟩

def connectTxs (committed : Finset Point) (pindex : BlockIndex) :
    Bool → List Transaction → Progress → Except BlockError Progress
  | _, [], p => .ok p
  | first, tx :: txs, p => do
    let p ← connectTx rules committed pindex first tx p
    connectTxs committed pindex false txs p

/-- A coins view with the block that it stands at. -/
structure CoinsTip where
  coins : CoinsView
  bestBlock : BlockHash

/-- The state behind a connected block. The genesis block and a mere check write no undo data. -/
structure Connected where
  tip : CoinsTip
  undo : Option (List (List Coin))
  store : Store

def connectBlock (fJustCheck : Bool) (block : Block) (pindex : BlockIndex) (tip : CoinsTip)
    (store : Store) : Except BlockError Connected := do
  rejectIf (pindex.hash ≠ block.getHash rules) .crash
  checkBlock rules (!fJustCheck) (!fJustCheck) block pindex.nHeight
  rejectIf (pindex.prevHash ≠ tip.bestBlock) .crash
  if pindex.hash = rules.hashGenesisBlock then
    .ok ⟨{ tip with bestBlock := if fJustCheck then tip.bestBlock else pindex.hash }, none, store⟩
  else do
    rejectIf (pindex.ancestors = []) .crash
    rejectIf (enforceBIP30 pindex ∧ overwrites rules.crypto tip.coins block)
      (.invalid "bad-txns-BIP30")
    let p ← connectTxs rules store.images.members pindex true block.vtx ⟨tip.coins, 0, 0, [], []⟩
    rejectIf (∃ tx ∈ block.vtx.head?, p.fees + rules.blockSubsidy pindex.nHeight < tx.getValueOut)
      (.invalid "bad-cb-amount")
    if fJustCheck then .ok ⟨{ tip with coins := p.view }, none, store⟩
    else
      .ok ⟨⟨p.view, pindex.hash⟩, some p.undo, commitBlockKIs pindex.hash p.kis store⟩

end ConnectBlock

section Inversion

variable {rules : Rules} {committed : Finset Point} {pindex : BlockIndex}

@[simp] theorem ofTx_ok {α : Type} {x : Except TxReject α} {a : α} :
    ofTx x = .ok a ↔ x = .ok a := by
  cases x <;> simp [ofTx]

/-- What a turn of the loop has done and checked. -/
structure TxConnected (rules : Rules) (committed : Finset Point) (pindex : BlockIndex)
    (first : Bool) (tx : Transaction) (p p' : Progress) : Prop where
  update : ∃ undo, updateCoins rules.crypto tx pindex.nHeight p.view = some (p'.view, undo) ∧
    p'.undo = if first then p.undo else p.undo ++ [undo]
  kis : p'.kis = p.kis ++ tx.keyImages
  nodup : p'.kis.Nodup
  contextual : tx.isCoinBase = false → tx.version = pricoinCTVersion →
    ∃ fee, verifyConfidentialContextual rules.crypto tx p.view committed pindex.nHeight = .ok fee

theorem connectTx_ok {first : Bool} {tx : Transaction} {p' : Progress}
    (h : connectTx rules committed pindex first tx p = .ok p') :
    TxConnected rules committed pindex first tx p p' := by
  simp only [connectTx, bind_ok, rejectIf_ok] at h
  obtain ⟨fees, hfees, -, -, -, -, h⟩ := h
  split at h
  · contradiction
  · rename_i view undo hupdate
    simp only [bind_ok, rejectIf_ok, not_not, Except.ok.injEq] at h
    obtain ⟨-, hnd, rfl⟩ := h
    refine ⟨⟨undo, hupdate, rfl⟩, rfl, hnd, fun hcb hv => ?_⟩
    rw [if_neg (by simp [hcb])] at hfees
    simp only [connectInputs, bind_ok, ofTx_ok, if_pos hv] at hfees
    obtain ⟨fee, hfee, -⟩ := hfees
    exact ⟨fee, hfee⟩

/-- What a block has passed before its transactions are applied. -/
structure BlockChecked (block : Block) : Prop where
  sized : block.vtx.length ≤ 1000000
  coinbase : ∃ cb txs, block.vtx = cb :: txs ∧ cb.isCoinBase = true ∧
    ∀ tx ∈ txs, tx.isCoinBase = false
  checked : ∀ tx ∈ block.vtx, checkTransaction tx = .ok ()

theorem checkBlock_ok {fCheckPOW fCheckMerkleRoot : Bool} {height : ℕ} {u : Unit}
    (h : checkBlock rules fCheckPOW fCheckMerkleRoot block height = .ok u) :
    BlockChecked block := by
  simp only [checkBlock, bind_ok, rejectIf_ok, checkAll_ok, ofTx_ok, not_or, not_exists,
    not_and] at h
  obtain ⟨-, -, -, -, -, hlen, -, hfirst, -, hrest, -, htxs, -⟩ := h
  obtain ⟨hne, hsize, -⟩ := hlen
  refine ⟨?_, ?_, htxs⟩
  · simp only [maxBlockWeight, witnessScaleFactor] at hsize
    omega
  · obtain ⟨cb, txs, hvtx⟩ := exists_cons_of_ne_nil hne
    rw [hvtx] at hfirst hrest
    exact ⟨cb, txs, hvtx, by simpa using hfirst, by simpa using hrest⟩

/-- A block that a node connects for good, other than the genesis block. -/
structure BlockConnected (rules : Rules) (block : Block) (pindex : BlockIndex) (tip : CoinsTip)
    (store : Store) (c : Connected) (p : Progress) : Prop where
  hash : pindex.hash = block.getHash rules
  notGenesis : pindex.hash ≠ rules.hashGenesisBlock
  checked : BlockChecked block
  prev : pindex.prevHash = tip.bestBlock
  parent : pindex.ancestors ≠ []
  bip30 : enforceBIP30 pindex → ¬ overwrites rules.crypto tip.coins block
  loop : connectTxs rules store.images.members pindex true block.vtx ⟨tip.coins, 0, 0, [], []⟩ =
    .ok p
  result : c = ⟨⟨p.view, pindex.hash⟩, some p.undo, commitBlockKIs pindex.hash p.kis store⟩

theorem connectBlock_ok {tip : CoinsTip} {store : Store}
    (h : connectBlock rules false block pindex tip store = .ok c) :
    (pindex.hash = rules.hashGenesisBlock ∧ pindex.hash = block.getHash rules ∧
      checkBlock rules true true block pindex.nHeight = .ok () ∧
      c = ⟨{ tip with bestBlock := pindex.hash }, none, store⟩) ∨
    ∃ p, BlockConnected rules block pindex tip store c p := by
  simp only [connectBlock, bind_ok, rejectIf_ok, not_not] at h
  obtain ⟨-, hhash, u, hcheck, -, hprev, h⟩ := h
  split at h
  · rename_i hgenesis
    simp only [Bool.false_eq_true, if_false, Except.ok.injEq] at h
    exact .inl ⟨hgenesis, hhash, hcheck, h.symm⟩
  · rename_i hgenesis
    simp only [bind_ok, rejectIf_ok, not_and, Bool.false_eq_true, if_false, Except.ok.injEq] at h
    obtain ⟨-, hparent, -, hbip30, p, hloop, -, -, rfl⟩ := h
    exact .inr ⟨p, hhash, hgenesis, checkBlock_ok hcheck, hprev, hparent, hbip30, hloop, rfl⟩

/-- What every successful turn preserves holds behind the loop. -/
theorem connectTxs_invariant (Inv : List Transaction → Progress → Prop)
    (hstep : ∀ first tx txs p p', TxConnected rules committed pindex first tx p p' →
      Inv (tx :: txs) p → Inv txs p')
    {first : Bool} {txs : List Transaction} {p p' : Progress}
    (h : connectTxs rules committed pindex first txs p = .ok p') (hinv : Inv txs p) :
    Inv [] p' := by
  induction txs generalizing first p with
  | nil =>
    simp only [connectTxs, Except.ok.injEq] at h
    exact h ▸ hinv
  | cons tx txs ih =>
    simp only [connectTxs, bind_ok] at h
    obtain ⟨q, hq, hrest⟩ := h
    exact ih hrest (hstep first tx txs p q (connectTx_ok hq) hinv)

theorem TxConnected.fresh {first : Bool} {tx : Transaction} {p' : Progress}
    (h : TxConnected rules committed pindex first tx p p') (hsound : TxSound tx) :
    ∀ ki ∈ tx.keyImages, ki ∉ committed := by
  by_cases hv : tx.version = pricoinCTVersion
  · obtain ⟨fee, hfee⟩ := h.contextual (hsound.bundle hv).notCoinbase hv
    exact (verifyConfidentialContextual_ok hfee).fresh hsound
  · simp [Transaction.keyImages, Transaction.ringInputs, hv]

/-- The loop collects the key images of the transactions in order, none twice. -/
theorem connectTxs_kis {first : Bool} {txs : List Transaction} {p p' : Progress}
    (h : connectTxs rules committed pindex first txs p = .ok p') (hp : p.kis.Nodup) :
    p'.kis = p.kis ++ txs.flatMap Transaction.keyImages ∧ p'.kis.Nodup := by
  have hinv := connectTxs_invariant
    (fun rest q => q.kis ++ rest.flatMap Transaction.keyImages =
      p.kis ++ txs.flatMap Transaction.keyImages ∧ q.kis.Nodup)
    (fun first tx rest q q' hq hinv => by
      refine ⟨?_, hq.nodup⟩
      rw [hq.kis, ← hinv.1, flatMap_cons, append_assoc]) h ⟨rfl, hp⟩
  simpa using hinv

theorem BlockChecked.sound (h : BlockChecked block) : ∀ tx ∈ block.vtx, TxSound tx :=
  fun tx htx => checkTransaction_ok (h.checked tx htx)

/-- The key images of a connected block are new, to the store and to each other. -/
theorem BlockConnected.images {tip : CoinsTip} {store : Store}
    (h : BlockConnected rules block pindex tip store c p) :
    p.kis = block.keyImages ∧ block.keyImages.Nodup ∧
    ∀ ki ∈ block.keyImages, ki ∉ store.images.members := by
  obtain ⟨hkis, hnd⟩ := connectTxs_kis h.loop nodup_nil
  rw [nil_append] at hkis
  have hfresh := connectTxs_invariant
    (fun rest q => (∀ tx ∈ rest, TxSound tx) ∧ ∀ ki ∈ q.kis, ki ∉ store.images.members)
    (fun first tx rest q q' hq hinv => by
      refine ⟨fun t ht => hinv.1 t (mem_cons_of_mem _ ht), fun ki hki => ?_⟩
      rw [hq.kis] at hki
      rcases mem_append.mp hki with hki | hki
      · exact hinv.2 ki hki
      · exact hq.fresh (hinv.1 tx mem_cons_self) ki hki)
    h.loop ⟨h.checked.sound, by simp⟩
  rw [hkis] at hnd hfresh
  exact ⟨hkis, hnd, hfresh.2⟩

theorem connectTxs_congr {committed' : Finset Point} {txs : List Transaction} {first : Bool}
    {p : Progress} (h : ∀ tx ∈ txs, ∀ ki ∈ tx.keyImages, ki ∈ committed ↔ ki ∈ committed') :
    connectTxs rules committed pindex first txs p =
      connectTxs rules committed' pindex first txs p := by
  induction txs generalizing first p with
  | nil => rfl
  | cons tx txs ih =>
    rw [forall_mem_cons] at h
    have htx : connectTx rules committed pindex first tx p =
        connectTx rules committed' pindex first tx p := by
      simp only [connectTx, connectInputs, verifyConfidentialContextual_congr h.1]
    rw [connectTxs, connectTxs, htx]
    simp only [ih h.2]

/-- A block that connects does so with every store that has the same of its key images. -/
theorem connectBlock_congr {tip : CoinsTip} {store store' : Store}
    (h : ∀ ki ∈ block.keyImages, ki ∈ store.images.members ↔ ki ∈ store'.images.members)
    (hc : connectBlock rules false block pindex tip store = .ok c) :
    connectBlock rules false block pindex tip store' = .ok ⟨c.tip, c.undo,
      if pindex.hash = rules.hashGenesisBlock then store'
      else commitBlockKIs pindex.hash block.keyImages store'⟩ := by
  have hloop : ∀ p, connectTxs rules store.images.members pindex true block.vtx p =
      connectTxs rules store'.images.members pindex true block.vtx p := fun p =>
    connectTxs_congr fun tx htx ki hki => h ki (mem_flatMap.mpr ⟨tx, htx, hki⟩)
  rcases connectBlock_ok hc with ⟨hgenesis, -, -, rfl⟩ | ⟨p, hconn⟩
  · simp only [connectBlock, bind_ok, if_pos hgenesis] at hc ⊢
    obtain ⟨u, hhash, v, hcheck, w, hprev, -⟩ := hc
    exact ⟨u, hhash, v, hcheck, w, hprev, rfl⟩
  · simp only [connectBlock, bind_ok, if_neg hconn.notGenesis, Bool.false_eq_true, if_false,
      hloop] at hc ⊢
    obtain ⟨u, hhash, v, hcheck, w, hprev, x, hparent, y, hbip30, q, hq, z, hamount, -⟩ := hc
    obtain rfl : q = p := Except.ok.inj (hq.symm.trans ((hloop _).symm.trans hconn.loop))
    refine ⟨u, hhash, v, hcheck, w, hprev, x, hparent, y, hbip30, q, hq, z, hamount, ?_⟩
    rw [hconn.result, hconn.images.1]

end Inversion

end Pricoin.BlockConnection
