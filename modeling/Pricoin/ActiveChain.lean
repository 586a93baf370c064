import Pricoin.BlockAcceptance
import Pricoin.ConnectDisconnect
import Pricoin.Runs

/-!
The active chain with its coins, key images and undo files, and the two steps that
move its tip. Whatever blocks are connected and disconnected, the key-image store
in memory is a function of the active chain: a bucket for each block with ring
inputs, holding that block's key images, and the set is the union of the buckets.
-/
namespace Pricoin.ActiveChain

open ByteStreams Checks Runs TaggedSets KeyImageFile KeyImageStore Transactions Coins TxChecks List
open BlockConnection BlockAcceptance UndoCodec BlockDisconnection ConnectDisconnect

variable {pindexNew : BlockIndex} {block : Block} {s s' : Chainstate}

/-- An active block with its index entry. -/
abbrev ActiveBlock := BlockIndex × Block

/-- The active chain, the tip first, and what the node keeps beside it. -/
structure Chainstate where
  chain : List ActiveBlock
  tip : CoinsTip
  store : Store
  undoFiles : BlockHash → Option (List UInt8)

def emptyChain (store : Store) : Chainstate := ⟨[], ⟨fun _ => none, nullHash⟩, store, fun _ => none⟩

def chainHashes (chain : List ActiveBlock) : List BlockHash := chain.map (fun e => e.1.hash)

def chainKeyImages (chain : List ActiveBlock) : List Point := chain.flatMap (fun e => e.2.keyImages)

inductive TipStep where
  | connect (pindexNew : BlockIndex) (block : Block)
  | disconnect

inductive TipError where
  | connect (e : BlockError)
  | disconnect (e : DisconnectError)
  deriving DecidableEq, Repr

section Steps

variable (rules : Rules) (keys : PubKeys)

/-- A block that was connected before has its undo position already and keeps that record. -/
def recordUndo (pindex : BlockIndex) (undo : Option BlockUndo)
    (undoFiles : BlockHash → Option (List UInt8)) : BlockHash → Option (List UInt8) :=
  match undo, undoFiles pindex.hash with
  | some undo, none => Function.update undoFiles pindex.hash
      (some (writeBlockUndo rules.crypto keys pindex.prevHash undo))
  | _, _ => undoFiles

def connectTip (pindexNew : BlockIndex) (block : Block) (s : Chainstate) :
    Except BlockError Chainstate := do
  rejectIf (pindexNew.ancestors ≠ chainHashes s.chain) .crash
  let c ← connectBlock rules false block pindexNew s.tip s.store
  .ok ⟨(pindexNew, block) :: s.chain, c.tip, c.store,
    recordUndo rules keys pindexNew c.undo s.undoFiles⟩

/-- Only a clean disconnection counts. -/
def disconnectTip (s : Chainstate) : Except DisconnectError Chainstate :=
  match s.chain with
  | [] => .error .crash
  | (pindexDelete, block) :: rest => do
    rejectIf (pindexDelete.ancestors = [] ∨ s.tip.bestBlock ≠ pindexDelete.hash) .crash
    let d ← disconnectBlock rules.crypto keys block pindexDelete (s.undoFiles pindexDelete.hash)
      s.tip s.store
    rejectIf (d.fClean = false) .failed
    .ok ⟨rest, d.tip, d.store, s.undoFiles⟩

def tipStep (s : Chainstate) : TipStep → Except TipError Chainstate
  | .connect pindexNew block => (connectTip rules keys pindexNew block s).mapError .connect
  | .disconnect => (disconnectTip rules keys s).mapError .disconnect

/-- Accept a block and connect it to the tip. -/
def connectNext (s : Chainstate) (b : ActiveBlock) : Except BlockError Chainstate := do
  acceptBlock rules b.2 b.1
  connectTip rules keys b.1 b.2 s

variable {rules keys}

theorem connectTip_ok (h : connectTip rules keys pindexNew block s = .ok s') :
    pindexNew.ancestors = chainHashes s.chain ∧
    ∃ c, connectBlock rules false block pindexNew s.tip s.store = .ok c ∧
      s' = ⟨(pindexNew, block) :: s.chain, c.tip, c.store,
        recordUndo rules keys pindexNew c.undo s.undoFiles⟩ := by
  simp only [connectTip, bind_ok, rejectIf_ok, not_not, Except.ok.injEq] at h
  obtain ⟨-, hanc, c, hc, rfl⟩ := h
  exact ⟨hanc, c, hc, rfl⟩

theorem disconnectTip_ok (h : disconnectTip rules keys s = .ok s') :
    ∃ pindexDelete block rest d, s.chain = (pindexDelete, block) :: rest ∧
      disconnectBlock rules.crypto keys block pindexDelete (s.undoFiles pindexDelete.hash)
        s.tip s.store = .ok d ∧ d.fClean = true ∧ s' = ⟨rest, d.tip, d.store, s.undoFiles⟩ := by
  unfold disconnectTip at h
  split at h
  · contradiction
  · rename_i pindexDelete block rest hchain
    simp only [bind_ok, rejectIf_ok, Bool.not_eq_false, Except.ok.injEq] at h
    obtain ⟨-, -, d, hd, -, hclean, rfl⟩ := h
    exact ⟨pindexDelete, block, rest, d, hchain, hd, hclean, rfl⟩

theorem tipStep_cases {a : TipStep} (h : tipStep rules keys s a = .ok s') :
    (∃ pindexNew block, a = .connect pindexNew block ∧
      connectTip rules keys pindexNew block s = .ok s') ∨
    (a = .disconnect ∧ disconnectTip rules keys s = .ok s') := by
  cases a with
  | connect pindexNew block => exact .inl ⟨pindexNew, block, rfl, mapError_ok.mp h⟩
  | disconnect => exact .inr ⟨rfl, mapError_ok.mp h⟩

theorem connectNext_chain {b : ActiveBlock} (h : connectNext rules keys s b = .ok s') :
    s'.chain = b :: s.chain := by
  simp only [connectNext, bind_ok] at h
  obtain ⟨-, -, h⟩ := h
  obtain ⟨-, c, -, rfl⟩ := connectTip_ok h
  rfl

theorem run_connectNext_chain {blocks : List ActiveBlock}
    (h : run (connectNext rules keys) s blocks = .ok s') :
    s'.chain = blocks.reverse ++ s.chain := by
  induction blocks generalizing s with
  | nil =>
    rw [run, Except.ok.injEq] at h
    simp [h]
  | cons b blocks ih =>
    rw [run, bind_ok] at h
    obtain ⟨t, ht, hrest⟩ := h
    rw [ih hrest, connectNext_chain ht]
    simp

theorem run_tipStep_of_connectNext {blocks : List ActiveBlock}
    (h : run (connectNext rules keys) s blocks = .ok s') :
    run (tipStep rules keys) s (blocks.map (fun b => .connect b.1 b.2)) = .ok s' := by
  induction blocks generalizing s with
  | nil =>
    rw [run, Except.ok.injEq] at h
    subst h
    rfl
  | cons b blocks ih =>
    rw [run, bind_ok] at h
    obtain ⟨t, ht, hrest⟩ := h
    simp only [connectNext, bind_ok] at ht
    obtain ⟨-, -, ht⟩ := ht
    rw [map_cons, run, bind_ok]
    exact ⟨t, mapError_ok.mpr ht, ih hrest⟩

end Steps

section KeyImages

/-- The key images that a chain commits to, with a bucket for each block that has any. -/
def chainImages : List ActiveBlock → KeyImages
  | [] => .empty
  | (pindex, block) :: rest =>
    if block.keyImages = [] then chainImages rest
    else (chainImages rest).addAll pindex.hash block.keyImages

/-- Every block of the chain stands on the ones before it and brought only new key images. -/
def ChainSound : List ActiveBlock → Prop
  | [] => True
  | (pindex, block) :: rest => pindex.ancestors = chainHashes rest ∧ block.keyImages.Nodup ∧
    (∀ ki ∈ block.keyImages, ki ∉ (chainImages rest).members) ∧ ChainSound rest

theorem mem_members_chainImages {chain : List ActiveBlock} {ki : Point} :
    ki ∈ (chainImages chain).members ↔ ki ∈ chainKeyImages chain := by
  induction chain with
  | nil => simp [chainImages, chainKeyImages, TaggedSet.empty]
  | cons e rest ih =>
    obtain ⟨pindex, block⟩ := e
    rw [chainImages, chainKeyImages, flatMap_cons, ← chainKeyImages]
    split
    · rename_i hnone
      rw [ih, hnone, nil_append]
    · rw [TaggedSet.members_addAll, Finset.mem_union, mem_toFinset, ih, mem_append,
        or_comm]

theorem ChainSound.nodup {chain : List ActiveBlock} (h : ChainSound chain) :
    (chainKeyImages chain).Nodup := by
  induction chain with
  | nil => exact nodup_nil
  | cons e rest ih =>
    obtain ⟨-, hnd, hfresh, hrest⟩ := h
    rw [chainKeyImages, flatMap_cons, ← chainKeyImages]
    refine nodup_append'.mpr ⟨hnd, ih hrest, fun ki hki hold => ?_⟩
    exact hfresh ki hki (mem_members_chainImages.mpr hold)

theorem ChainSound.hash_notMem {pindex : BlockIndex} {rest : List ActiveBlock}
    (h : ChainSound ((pindex, block) :: rest)) : pindex.hash ∉ chainHashes rest := by
  rw [← h.1]
  exact (nodup_cons.mp pindex.distinct).1

theorem hash_mem_of_bucket {chain : List ActiveBlock} {blockHash : BlockHash}
    (h : blockHash ∈ (chainImages chain).buckets) :
    ∃ e ∈ chain, e.1.hash = blockHash ∧ e.2.keyImages ≠ [] := by
  induction chain with
  | nil => simp [chainImages, TaggedSet.empty] at h
  | cons e rest ih =>
    obtain ⟨pindex, block⟩ := e
    rw [chainImages] at h
    have hold (hmem : blockHash ∈ (chainImages rest).buckets) :
        ∃ e ∈ (pindex, block) :: rest, e.1.hash = blockHash ∧ e.2.keyImages ≠ [] := by
      obtain ⟨e, he, heq⟩ := ih hmem
      exact ⟨e, mem_cons_of_mem _ he, heq⟩
    split at h
    · exact hold h
    · rename_i hsome
      rw [← Std.ExtTreeMap.isSome_getElem?_iff_mem, TaggedSet.getElem?_addAll] at h
      split at h
      · rename_i heq
        exact ⟨(pindex, block), mem_cons_self, heq, hsome⟩
      · exact hold (Std.ExtTreeMap.isSome_getElem?_iff_mem.mp h)

theorem not_bucket_of_hash {chain : List ActiveBlock} {blockHash : BlockHash}
    (h : blockHash ∉ chainHashes chain) : blockHash ∉ (chainImages chain).buckets := by
  intro hmem
  obtain ⟨e, he, rfl, -⟩ := hash_mem_of_bucket hmem
  exact h (mem_map_of_mem he)

/-- A block with ring inputs has its own key images in its bucket, in order. -/
theorem ChainSound.bucket {chain : List ActiveBlock} (h : ChainSound chain) {e : ActiveBlock}
    (he : e ∈ chain) (hsome : e.2.keyImages ≠ []) :
    (chainImages chain).buckets[e.1.hash]? = some e.2.keyImages := by
  induction chain with
  | nil => simp at he
  | cons top rest ih =>
    obtain ⟨pindex, block⟩ := top
    obtain ⟨-, hnd, hfresh, hrest⟩ := id h
    rw [chainImages]
    rcases mem_cons.mp he with rfl | he
    · have hnone := Std.ExtTreeMap.getElem?_eq_none (not_bucket_of_hash h.hash_notMem)
      rw [if_neg hsome, TaggedSet.getElem?_addAll, if_pos rfl, newlyAdded_of_fresh hnd hfresh,
        TaggedSet.bucket, hnone]
      rfl
    · have hne : pindex.hash ≠ e.1.hash := fun heq =>
        h.hash_notMem (heq ▸ mem_map_of_mem he)
      split
      · exact ih hrest he
      · rw [TaggedSet.getElem?_addAll, if_neg hne]
        exact ih hrest he

theorem wellFormed_chainImages (chain : List ActiveBlock) : (chainImages chain).WellFormed := by
  induction chain with
  | nil => exact TaggedSet.empty_wellFormed
  | cons e rest ih =>
    rw [chainImages]
    split
    · exact ih
    · exact ih.addAll _ _

variable {rules : Rules} {keys : PubKeys}

/-- The genesis block, which is never applied to coins and key images, is a coinbase only. -/
def GenesisPlain (rules : Rules) : Prop :=
  ∀ block height, block.getHash rules = rules.hashGenesisBlock →
    checkBlock rules true true block height = .ok () → block.vtx.length = 1

theorem GenesisPlain.coinbase (hgenesis : GenesisPlain rules) {height : ℕ}
    (hhash : block.getHash rules = rules.hashGenesisBlock)
    (hcheck : checkBlock rules true true block height = .ok ()) :
    ∃ cb, block.vtx = [cb] ∧ cb.isCoinBase = true ∧ TxSound cb := by
  have hchecked := checkBlock_ok hcheck
  obtain ⟨cb, txs, hvtx, hcb, -⟩ := hchecked.coinbase
  have hlen := hgenesis block height hhash hcheck
  rw [hvtx, length_cons, Nat.add_eq_right, length_eq_zero_iff] at hlen
  subst hlen
  exact ⟨cb, hvtx, hcb, hchecked.sound cb (hvtx ▸ mem_cons_self)⟩

/-- The store in memory is that of the active chain. -/
structure ImagesFollow (s : Chainstate) : Prop where
  images : s.store.images = chainImages s.chain
  sound : ChainSound s.chain

/-- A connected block brings new key images, which are filed under its hash. -/
theorem connectTip_images (hgenesis : GenesisPlain rules)
    (h : connectTip rules keys pindexNew block s = .ok s') :
    s'.chain = (pindexNew, block) :: s.chain ∧ pindexNew.ancestors = chainHashes s.chain ∧
    s'.store.images = (if block.keyImages = [] then s.store.images
      else s.store.images.addAll pindexNew.hash block.keyImages) ∧
    block.keyImages.Nodup ∧ ∀ ki ∈ block.keyImages, ki ∉ s.store.images.members := by
  obtain ⟨hanc, c, hc, rfl⟩ := connectTip_ok h
  rcases connectBlock_ok hc with ⟨hhash, hblock, hcheck, rfl⟩ | ⟨p, hconn⟩
  · obtain ⟨cb, hvtx, hcb, hsound⟩ := hgenesis.coinbase (hblock.symm.trans hhash) hcheck
    have hplain : block.keyImages = [] := by
      simp [Block.keyImages, hvtx, hsound.keyImages_of_coinbase hcb]
    exact ⟨rfl, hanc, (if_pos hplain).symm, by simp [hplain], by simp [hplain]⟩
  · obtain ⟨hkis, hnd, hfresh⟩ := hconn.images
    obtain rfl := hconn.result
    refine ⟨rfl, hanc, ?_, hnd, hfresh⟩
    change (commitBlockKIs pindexNew.hash p.kis s.store).images = _
    rw [commitBlockKIs_images, hkis]

theorem imagesFollow_connectTip (hgenesis : GenesisPlain rules)
    (h : connectTip rules keys pindexNew block s = .ok s') (hs : ImagesFollow s) :
    ImagesFollow s' := by
  obtain ⟨hchain, hanc, himages, hnd, hfresh⟩ := connectTip_images hgenesis h
  rw [hs.images] at himages hfresh
  exact ⟨by rw [himages, hchain, chainImages], by rw [hchain]; exact ⟨hanc, hnd, hfresh, hs.sound⟩⟩

theorem uncommitBlockKIs_chainImages {e : ActiveBlock} {rest : List ActiveBlock} {store : Store}
    (hsound : ChainSound (e :: rest)) (himages : store.images = chainImages (e :: rest)) :
    (uncommitBlockKIs e.1.hash store).images = chainImages rest := by
  obtain ⟨-, hnd, hfresh, hrest⟩ := id hsound
  have hfree := not_bucket_of_hash hsound.hash_notMem
  rw [uncommitBlockKIs_images, himages, chainImages]
  by_cases hnone : e.2.keyImages = []
  · rw [if_pos hnone, if_neg hfree]
  · have hmem : e.1.hash ∈ ((chainImages rest).addAll e.1.hash e.2.keyImages).buckets := by
      rw [← Std.ExtTreeMap.isSome_getElem?_iff_mem, TaggedSet.getElem?_addAll, if_pos rfl]
      rfl
    rw [if_neg hnone, if_pos hmem, TaggedSet.dropBucket_addAll _ _ _ hfree hnd hfresh]

theorem imagesFollow_disconnectTip (h : disconnectTip rules keys s = .ok s') (hs : ImagesFollow s) :
    ImagesFollow s' := by
  obtain ⟨pindex, block, rest, d, hchain, hd, -, rfl⟩ := disconnectTip_ok h
  obtain ⟨-, -, -, -, -, -, -, -, -, -, rfl⟩ := disconnectBlock_ok.mp hd
  obtain ⟨himages, hsound⟩ := hs
  rw [hchain] at himages hsound
  exact ⟨uncommitBlockKIs_chainImages hsound himages, hsound.2.2.2⟩

theorem imagesFollow_run (hgenesis : GenesisPlain rules) {steps : List TipStep}
    (h : run (tipStep rules keys) s steps = .ok s') (hs : ImagesFollow s) : ImagesFollow s' := by
  refine run_invariant (fun t a t' hstep ht => ?_) h hs
  rcases tipStep_cases hstep with ⟨pindexNew, block, -, hc⟩ | ⟨-, hd⟩
  · exact imagesFollow_connectTip hgenesis hc ht
  · exact imagesFollow_disconnectTip hd ht

/-- After every run of connections and disconnections from the empty chain: no key image occurs
twice in the active chain, the committed ones are those of the active chain, and the buckets are
those of the active blocks with ring inputs. -/
theorem keyImages_of_active_chain (hgenesis : GenesisPlain rules) {store : Store}
    (hempty : store.images = .empty) {steps : List TipStep} {s : Chainstate}
    (h : run (tipStep rules keys) (emptyChain store) steps = .ok s) :
    (chainKeyImages s.chain).Nodup ∧
    (∀ ki, ki ∈ s.store.images.members ↔ ki ∈ chainKeyImages s.chain) ∧
    (∀ e ∈ s.chain, e.2.keyImages ≠ [] →
      s.store.images.buckets[e.1.hash]? = some e.2.keyImages) ∧
    (∀ blockHash ∈ s.store.images.buckets,
      ∃ e ∈ s.chain, e.1.hash = blockHash ∧ e.2.keyImages ≠ []) ∧
    (∀ hash hash', hash ≠ hash' →
      (s.store.images.bucket hash).Disjoint (s.store.images.bucket hash')) := by
  obtain ⟨himages, hsound⟩ := imagesFollow_run hgenesis h ⟨hempty, trivial⟩
  rw [himages]
  refine ⟨hsound.nodup, fun ki => mem_members_chainImages, fun e he => hsound.bucket he,
    fun blockHash => hash_mem_of_bucket, fun hash hash' hne ki hki hki' => ?_⟩
  exact hne ((wellFormed_chainImages s.chain).apart hash hash' ki hki hki')

end KeyImages

section Sample

theorem sampleRules_genesisPlain : GenesisPlain sampleRules := by
  intro block height hhash hcheck
  simp only [checkBlock, bind_ok, if_true] at hcheck
  obtain ⟨-, -, u, hmerkle, -⟩ := hcheck
  simp only [sampleRules, rejectIf_ok, not_and, not_not] at hmerkle
  exact hmerkle hhash

/-- Scripts that start with the height and have sums of bytes that grow with it, past those of the
transactions below. -/
def sampleScript (n : ℕ) : Script :=
  pushInt n ++ if n ≤ 16 then [0] else if n ≤ 101 then [200] else List.replicate 20 255

def sampleAncestors : ℕ → List BlockHash
  | 0 => []
  | n + 1 => sampleHash n :: sampleAncestors n

theorem sampleAncestors_suffix {n m : ℕ} (h : n ≤ m) :
    sampleAncestors n <:+ sampleAncestors m := by
  induction h with
  | refl => exact suffix_rfl
  | step _ ih => exact ih.trans (suffix_cons _ _)

theorem sampleAncestors_length (n : ℕ) : (sampleAncestors n).length = n := by
  induction n with
  | zero => rfl
  | succ n ih => rw [sampleAncestors, length_cons, ih]

def sampleValue (hash : Uint256) : ℕ := leValue (hash.toList.take 2)

theorem sampleAncestors_nodup : (sampleAncestors 103).Nodup := by
  have hchain : ((sampleAncestors 103).map sampleValue).IsChain (· > ·) := by decide +kernel
  exact List.Nodup.of_map _ ((isChain_iff_pairwise.mp hchain).imp fun h => Nat.ne_of_gt h)

def sampleEntry (n : ℕ) : BlockIndex :=
  if h : n < 103 then
    ⟨sampleHash n, sampleAncestors n,
      (sampleAncestors_suffix h).sublist.nodup sampleAncestors_nodup,
      by rw [sampleAncestors_length]; omega⟩
  else sampleIndex

def sampleActive (n : ℕ) (txs : List Transaction) : ActiveBlock :=
  (sampleEntry n, sampleBlock n (sampleCoinbase (sampleScript n) :: txs))

/-- Spend the first coinbase to a one-time key. -/
def sampleSpend : Transaction :=
  sampleDirect ⟨sampleCrypto.txid (sampleCoinbase (sampleScript 1)), 0⟩ 50

def sampleSpendRef : PrevoutRef := ⟨sampleCrypto.txid sampleSpend, 0⟩

/-- Blocks until the first coinbase is mature, and one that spends it directly and then the new
output by ring. -/
def sampleBlocks : List ActiveBlock :=
  (List.range 101).map (fun n => sampleActive n []) ++
    [sampleActive 101 [sampleSpend, sampleRing sampleSpendRef 50 60]]

/-- A block that spends the output again, directly. -/
def sampleRespend : ActiveBlock := sampleActive 102 [sampleDirect sampleSpendRef 200]

theorem sampleBlocks_run :
    succeeds (fun _ => true) (run (connectNext sampleRules samplePubKeys)
      (emptyChain ⟨.empty, none, true⟩) (sampleBlocks ++ [sampleRespend])) = true := by
  decide +kernel

/-- Connect the blocks, take the last two off and connect the one with the ring spend again. -/
def sampleReorganization : List TipStep :=
  (sampleBlocks ++ [sampleRespend]).map (fun b => .connect b.1 b.2) ++
    [.disconnect, .disconnect] ++ (sampleBlocks.drop 101).map (fun b => .connect b.1 b.2)

/-- The key image of the ring spend is committed, and no other. -/
theorem keyImages_of_active_chain_sample :
    ∃ s, run (tipStep sampleRules samplePubKeys) (emptyChain ⟨.empty, none, true⟩)
        sampleReorganization = .ok s ∧
      ∀ ki, ki ∈ s.store.images.members ↔ ki = .replicate 33 50 := by
  have hsucceeds : succeeds (fun s => chainKeyImages s.chain = [.replicate 33 50])
      (run (tipStep sampleRules samplePubKeys) (emptyChain ⟨.empty, none, true⟩)
        sampleReorganization) = true := by
    decide +kernel
  obtain ⟨s, hs, himages⟩ := succeeds_iff.mp hsucceeds
  obtain ⟨-, hmembers, -⟩ := keyImages_of_active_chain sampleRules_genesisPlain rfl hs
  refine ⟨s, hs, fun ki => ?_⟩
  rw [hmembers, of_decide_eq_true himages, mem_singleton]

end Sample

end Pricoin.ActiveChain
