import Pricoin.MempoolAdmission

/-!
A node: its active chain and its memory pool. Transactions and packages enter the
pool, and the chain moves to other tips. A connected block evicts what it confirms
and what conflicts with it. The transactions of disconnected blocks are queued and
offered to the pool again once the new tip is reached. The pool is then cleared of
what is no longer final or spends an immature coinbase. Ring members play no part
in any of this.
-/
namespace Pricoin.NodeSteps

open Checks Runs TaggedSets KeyImageFile KeyImageStore Transactions Coins TxChecks BlockConnection
open UndoCodec BlockDisconnection ConnectDisconnect ActiveChain Mempool MempoolAccept
open MempoolAdmission

variable {r r' : Reorganizing}

structure Node where
  chainstate : Chainstate
  mempool : Pool

/-- A node on its way to another tip, with the queue of `DisconnectedBlockTransactions`. Its front
is the transaction that was confirmed last. -/
structure Reorganizing where
  node : Node
  queuedTx : List Transaction

inductive NodeError where
  /-- A block could not be disconnected, which is fatal. -/
  | disconnect (e : DisconnectError)
  /-- A failed assertion. -/
  | crash
  deriving DecidableEq, Repr

section Reorg

variable (rules : Rules) (keys : PubKeys) (policy : Policy)

/-- `DisconnectTip` with a queue. What the queue has no room for leaves the pool with its
descendants. -/
def disconnectTipAndQueue (r : Reorganizing) : Except NodeError Reorganizing :=
  match r.node.chainstate.chain with
  | [] => .error .crash
  | (_, block) :: _ => do
    let chainstate ← (disconnectTip rules keys r.node.chainstate).mapError .disconnect
    let queuedTx := r.queuedTx ++ block.vtx.reverse
    rejectIf (¬ (queuedTx.map rules.crypto.txid).Nodup) .crash
    let excess := policy.queueExcess queuedTx
    .ok ⟨⟨chainstate, (queuedTx.take excess).foldl
      (removeRecursiveTx rules.crypto policy.descendants) r.node.mempool⟩, queuedTx.drop excess⟩

/-- `ConnectTip` with its effect on the pool and the queue. -/
def connectTipAndEvict (b : ActiveBlock) (r : Reorganizing) : Except BlockError Reorganizing := do
  let chainstate ← connectTip rules keys b.1 b.2 r.node.chainstate
  .ok ⟨⟨chainstate, removeForBlock rules.crypto policy.descendants r.node.mempool b.2.vtx⟩,
    r.queuedTx.filter (fun tx => rules.crypto.txid tx ∉ b.2.vtx.map rules.crypto.txid)⟩

def disconnectTips : ℕ → Reorganizing → Except NodeError Reorganizing
  | 0, r => .ok r
  | n + 1, r => do
    let r ← disconnectTipAndQueue rules keys policy r
    disconnectTips n r

/-- Blocks are connected up to the first invalid one. -/
def connectTips : List ActiveBlock → Reorganizing → Except NodeError Reorganizing
  | [], r => .ok r
  | b :: bs, r =>
    match connectTipAndEvict rules keys policy b r with
    | .ok r => connectTips bs r
    | .error (.invalid _) => .ok r
    | .error .crash => .error .crash

/-- A transaction of a disconnected block returns, or what depends on it goes. -/
def resurrect (s : Chainstate) (fAddToMempool : Bool) (pool : Pool) (tx : Transaction) : Pool :=
  if !fAddToMempool || tx.isCoinBase then
    removeRecursiveTx rules.crypto policy.descendants pool tx
  else
    match acceptToMemoryPool rules.crypto policy s true false pool tx with
    | (pool, .ok _) => pool
    | (pool, .error _) => removeRecursiveTx rules.crypto policy.descendants pool tx

/-- Some outpoint that is not of the pool is an immature coinbase. All of them have coins. -/
def spendsImmature (s : Chainstate) (pool : Pool) : List OutPoint → Except NodeError Bool
  | [] => .ok false
  | o :: os =>
    if pool.existsTxid rules.crypto o.hash then spendsImmature s pool os
    else
      match s.tip.coins o with
      | none => .error .crash
      | some c => if immature s.chain.length c then .ok true else spendsImmature s pool os

/-- The transaction would be invalid in the next block. Ring members are not looked at. -/
def filterFinalAndMature (s : Chainstate) (pool : Pool) (e : Entry) : Except NodeError Bool :=
  if policy.checkFinalTxAtTip e.tx = false then .ok true
  else if policy.checkSequenceLocks e.tx
    (viewMempool rules.crypto (fun _ => none) pool s.tip.coins) = false then .ok true
  else if e.spendsCoinbase then spendsImmature rules s pool e.tx.prevouts
  else .ok false

def removeForReorg (s : Chainstate) (pool : Pool) : Except NodeError Pool := do
  let toRemove ← pool.mapTx.filterM (filterFinalAndMature rules policy s pool)
  .ok (removeDescendants rules.crypto policy.descendants pool
    (toRemove.map (Entry.txid rules.crypto)))

def maybeUpdateMempoolForReorg (fAddToMempool : Bool) (r : Reorganizing) :
    Except NodeError Node := do
  let s := r.node.chainstate
  let pool := r.queuedTx.reverse.foldl (resurrect rules policy s fAddToMempool) r.node.mempool
  let pool := removeStaged rules.crypto pool (policy.trimmed pool)
  let pool ← removeForReorg rules policy s pool
  .ok ⟨s, limitMempoolSize rules.crypto policy pool⟩

/-- Disconnect some blocks and connect others. -/
def activateBestChainStep (disconnects : ℕ) (connects : List ActiveBlock) (n : Node) :
    Except NodeError Node := do
  let r ← disconnectTips rules keys policy disconnects ⟨n, []⟩
  let r ← connectTips rules keys policy connects r
  if disconnects = 0 then .ok r.node else maybeUpdateMempoolForReorg rules policy true r

/-- One turn of the loop of `InvalidateBlock`. -/
def invalidateTip (fAddToMempool : Bool) (n : Node) : Except NodeError Node := do
  let r ← disconnectTipAndQueue rules keys policy ⟨n, []⟩
  maybeUpdateMempoolForReorg rules policy fAddToMempool r

end Reorg

/-- What happens to a node, with the decisions that the policy takes on the way. -/
inductive Event where
  | transaction (policy : Policy) (tx : Transaction) (bypassLimits testAccept : Bool)
  | package (policy : Policy) (package : List Transaction) (testAccept : Bool)
      (clientMaxfeerate : Option (ℤ × ℕ))
  | activate (policy : Policy) (disconnects : ℕ) (connects : List ActiveBlock)
  | invalidate (policy : Policy) (fAddToMempool : Bool)

/-- A refused transaction or package is no failure of the node. -/
def nodeStep (rules : Rules) (keys : PubKeys) (n : Node) : Event → Except NodeError Node
  | .transaction policy tx bypassLimits testAccept =>
    .ok ⟨n.chainstate, (acceptToMemoryPool rules.crypto policy n.chainstate bypassLimits testAccept
      n.mempool tx).1⟩
  | .package policy package testAccept clientMaxfeerate =>
    .ok ⟨n.chainstate, (processNewPackage rules.crypto policy n.chainstate testAccept
      clientMaxfeerate n.mempool package).1⟩
  | .activate policy disconnects connects =>
    activateBestChainStep rules keys policy disconnects connects n
  | .invalidate policy fAddToMempool => invalidateTip rules keys policy fAddToMempool n

section Inversion

variable {rules : Rules} {keys : PubKeys} {policy : Policy}

/-- A disconnected block leaves the chain and the pool only shrinks. -/
theorem disconnectTipAndQueue_ok (h : disconnectTipAndQueue rules keys policy r = .ok r') :
    disconnectTip rules keys r.node.chainstate = .ok r'.node.chainstate ∧
    RemovedFrom rules.crypto r.node.mempool r'.node.mempool := by
  unfold disconnectTipAndQueue at h
  split at h
  · contradiction
  · simp only [bind_ok, mapError_ok, Except.ok.injEq] at h
    obtain ⟨chainstate, hd, -, -, rfl⟩ := h
    exact ⟨hd, removedFrom_foldl removedFrom_removeRecursiveTx _ _⟩

theorem connectTipAndEvict_ok {b : ActiveBlock}
    (h : connectTipAndEvict rules keys policy b r = .ok r') :
    connectTip rules keys b.1 b.2 r.node.chainstate = .ok r'.node.chainstate ∧
    r'.node.mempool = removeForBlock rules.crypto policy.descendants r.node.mempool b.2.vtx := by
  simp only [connectTipAndEvict, bind_ok, Except.ok.injEq] at h
  obtain ⟨chainstate, hc, rfl⟩ := h
  exact ⟨hc, rfl⟩

theorem disconnectTips_invariant {Inv : Reorganizing → Prop}
    (hstep : ∀ r r', disconnectTipAndQueue rules keys policy r = .ok r' → Inv r → Inv r') {k : ℕ}
    (h : disconnectTips rules keys policy k r = .ok r') (hr : Inv r) : Inv r' := by
  induction k generalizing r with
  | zero =>
    rw [disconnectTips, Except.ok.injEq] at h
    exact h ▸ hr
  | succ k ih =>
    rw [disconnectTips, bind_ok] at h
    obtain ⟨t, ht, hrest⟩ := h
    exact ih hrest (hstep r t ht hr)

theorem connectTips_invariant {Inv : Reorganizing → Prop} {bs : List ActiveBlock}
    (hstep : ∀ b ∈ bs, ∀ r r', connectTipAndEvict rules keys policy b r = .ok r' → Inv r → Inv r')
    (h : connectTips rules keys policy bs r = .ok r') (hr : Inv r) : Inv r' := by
  induction bs generalizing r with
  | nil =>
    rw [connectTips, Except.ok.injEq] at h
    exact h ▸ hr
  | cons b bs ih =>
    rw [connectTips] at h
    split at h
    · rename_i t ht
      exact ih (fun b' hb' => hstep b' (List.mem_cons_of_mem _ hb')) h
        (hstep b List.mem_cons_self r t ht hr)
    · rw [Except.ok.injEq] at h
      exact h ▸ hr
    · contradiction

variable {Inv : Pool → Prop} {s : Chainstate}

theorem resurrect_invariant
    (hadmitted : ∀ pool pool' added, added.length ≤ 1 → Staged rules.crypto s pool pool' added →
      Inv pool → Inv pool') (fAddToMempool : Bool) (pool : Pool) (tx : Transaction)
    (h : Inv pool) : Inv (resurrect rules policy s fAddToMempool pool tx) := by
  have hremove : ∀ pool, Inv pool →
      Inv (removeRecursiveTx rules.crypto policy.descendants pool tx) := fun pool =>
    hadmitted _ _ [] (by simp) (staged_nil (removedFrom_removeRecursiveTx pool tx))
  unfold resurrect
  split
  · exact hremove pool h
  · obtain ⟨added, hlen, hadded⟩ := acceptSingleTransaction_staged rules.crypto policy
      (.singleAccept true false) s pool tx
    have hafter := hadmitted _ _ added hlen hadded h
    split
    · rename_i pool' u heq
      rw [acceptToMemoryPool] at heq
      rwa [heq] at hafter
    · rename_i pool' e heq
      rw [acceptToMemoryPool] at heq
      rw [heq] at hafter
      exact hremove pool' hafter

/-- A reorganization ends with single admissions and removals, at the tip that it has reached. -/
theorem maybeUpdateMempoolForReorg_invariant (Inv : Pool → Prop) {fAddToMempool : Bool}
    {r : Reorganizing} {n : Node}
    (h : maybeUpdateMempoolForReorg rules policy fAddToMempool r = .ok n)
    (hadmitted : ∀ pool pool' added, added.length ≤ 1 →
      Staged rules.crypto r.node.chainstate pool pool' added → Inv pool → Inv pool')
    (hr : Inv r.node.mempool) : n.chainstate = r.node.chainstate ∧ Inv n.mempool := by
  simp only [maybeUpdateMempoolForReorg, removeForReorg, bind_ok, Except.ok.injEq] at h
  obtain ⟨_, ⟨toRemove, -, rfl⟩, rfl⟩ := h
  have hshrink : ∀ pool pool' : Pool, RemovedFrom rules.crypto pool pool' → Inv pool →
      Inv pool' :=
    fun pool pool' hremoved => hadmitted pool pool' [] (by simp) (staged_nil hremoved)
  have hback : ∀ (queue : List Transaction) pool, Inv pool →
      Inv (queue.foldl (resurrect rules policy r.node.chainstate fAddToMempool) pool) := by
    intro queue
    induction queue with
    | nil => exact fun pool hpool => hpool
    | cons tx queue ih =>
      exact fun pool hpool => ih _ (resurrect_invariant hadmitted _ pool tx hpool)
  refine ⟨rfl, hshrink _ _ (removedFrom_limitMempoolSize _) ?_⟩
  refine hshrink _ _ (removedFrom_removeStaged _ _) ?_
  exact hshrink _ _ (removedFrom_removeStaged _ _) (hback _ _ hr)

theorem activateBestChainStep_ok {disconnects : ℕ} {connects : List ActiveBlock} {n n' : Node}
    (h : activateBestChainStep rules keys policy disconnects connects n = .ok n') :
    ∃ r r', disconnectTips rules keys policy disconnects ⟨n, []⟩ = .ok r ∧
      connectTips rules keys policy connects r = .ok r' ∧
      (n' = r'.node ∨ maybeUpdateMempoolForReorg rules policy true r' = .ok n') := by
  simp only [activateBestChainStep, bind_ok] at h
  obtain ⟨r, hr, r', hr', h⟩ := h
  refine ⟨r, r', hr, hr', ?_⟩
  split at h
  · rw [Except.ok.injEq] at h
    exact .inl h.symm
  · exact .inr h

theorem invalidateTip_ok {fAddToMempool : Bool} {n n' : Node}
    (h : invalidateTip rules keys policy fAddToMempool n = .ok n') :
    ∃ r, disconnectTipAndQueue rules keys policy ⟨n, []⟩ = .ok r ∧
      maybeUpdateMempoolForReorg rules policy fAddToMempool r = .ok n' := by
  rw [invalidateTip, bind_ok] at h
  exact h

end Inversion

section Sample

/-- Everything is standard and final, a transaction of size one has to pay a fee of one, and
nothing is ever evicted. -/
def samplePolicy : Policy where
  requireStandard := true
  isStandardTx _ := none
  checkFinalTxAtTip _ := true
  haveCoinInCache _ := false
  checkSequenceLocks _ _ := true
  validateInputsStandardness _ _ := .ok ()
  isWitnessStandard _ _ := true
  sigOpCost _ _ := 0
  txSize _ _ := 1
  modifiedFee _ fee := fee
  preCheckEphemeralTx _ _ _ := .ok ()
  mempoolRejectFee _ _ := 0
  minRelayFee size := size
  incrementalRelayFee size := size
  singleTRUCChecks _ _ _ _ _ := none
  packageTRUCChecks _ _ _ _ _ := true
  checkEphemeralSpends _ _ := .ok ()
  uniqueClusterCount _ conflicts := conflicts.length
  descendants _ _ := []
  ancestors _ _ := []
  checkPolicyLimits _ _ _ := true
  improvesFeerateDiagram _ _ _ := true
  checkInputScripts _ _ := .ok ()
  checkInputsFromMempoolAndCache _ _ := .ok ()
  evicted _ := []
  trimmed _ := []
  queueExcess _ := 0

def sampleNode : Node := ⟨emptyChain ⟨.empty, none, true⟩, emptyPool⟩

/-- Spend the first coinbase to two one-time keys. -/
def sampleSplit : Transaction where
  version := pricoinCTVersion
  vin := [⟨⟨sampleCrypto.txid (sampleCoinbase (sampleScript 1)), 0⟩, [], 0, []⟩]
  vout := [⟨0, []⟩, ⟨0, []⟩]
  nLockTime := 0
  ctBundle := ⟨[zeroPoint], [], [sampleOutput 50, sampleOutput 51], 0⟩

def sampleOut (n : UInt32) : PrevoutRef := ⟨sampleCrypto.txid sampleSplit, n⟩

/-- A ring spend whose marker need not be in the ring. -/
def sampleMarked (marker : PrevoutRef) (ring : List PrevoutRef) (image key : UInt8) (fee : UInt64) :
    Transaction where
  version := pricoinCTVersion
  vin := [⟨marker, [], 0, []⟩]
  vout := [⟨0, []⟩]
  nLockTime := 0
  ctBundle := ⟨[], [⟨ring, zeroPoint, { sampleSignature image with
    s := ring.map (fun _ => .replicate 32 0) }⟩], [sampleOutput key], fee⟩

/-- Blocks until the first coinbase is mature, and one that splits it. -/
def sampleGrowth : Event := .activate samplePolicy 0
  ((List.range 101).map (fun n => sampleActive n []) ++ [sampleActive 101 [sampleSplit]])

/-- A ring spend of the first output that pays no fee. -/
def sampleParent : Transaction := sampleMarked (sampleOut 0) [sampleOut 0] 50 60 0

/-- A ring spend of an output that pays for its parent, which it only marks. -/
def sampleChild (out : UInt32) (image : UInt8) : Transaction :=
  sampleMarked ⟨sampleCrypto.txid sampleParent, 0⟩ [sampleOut out] image 61 5

def samplePair (child : Transaction) : Event :=
  .package samplePolicy [sampleParent, child] false none

/-- A ring spend of the second output with the first one as a decoy. -/
def sampleDecoyed (marker : UInt32) : Transaction :=
  sampleMarked (sampleOut marker) [sampleOut 0, sampleOut 1] 51 62 5

def sampleArrival (marker : UInt32) : Event :=
  .transaction samplePolicy (sampleDecoyed marker) false false

def sampleNext (txs : List Transaction) : Event := .activate samplePolicy 0 [sampleActive 102 txs]

/-- The tip has spent the decoy of the transaction in the pool. -/
def decoySpent (n : Node) : Bool :=
  n.mempool.transactions = [sampleDecoyed 1] && !n.chainstate.tip.coins.haveCoin
    (sampleOut 0).outPoint

def sampleChecks (n : Node) : Bool :=
  let step := nodeStep sampleRules samplePubKeys n
  let steps := run (nodeStep sampleRules samplePubKeys) n
  succeeds (fun n' => n'.mempool.transactions = [sampleParent, sampleChild 0 50])
    (step (samplePair (sampleChild 0 50))) &&
  succeeds (fun n' => n'.mempool.transactions = [sampleParent, sampleChild 1 51])
    (step (samplePair (sampleChild 1 51))) &&
  succeeds (fun n' => n'.mempool.transactions = [sampleDecoyed 1]) (step (sampleArrival 1)) &&
  succeeds (fun n' => n'.mempool.transactions = [sampleDecoyed 1])
    (steps [sampleArrival 1, sampleNext []]) &&
  succeeds decoySpent (steps [sampleArrival 1, sampleNext [sampleDirect (sampleOut 0) 200]])

/-- The node behind the sample blocks, and what comes of the events above. -/
structure Grown (n : Node) : Prop where
  grown : nodeStep sampleRules samplePubKeys sampleNode sampleGrowth = .ok n
  rivals : ∃ n', nodeStep sampleRules samplePubKeys n (samplePair (sampleChild 0 50)) = .ok n' ∧
    n'.mempool.transactions = [sampleParent, sampleChild 0 50]
  pair : ∃ n', nodeStep sampleRules samplePubKeys n (samplePair (sampleChild 1 51)) = .ok n' ∧
    n'.mempool.transactions = [sampleParent, sampleChild 1 51]
  arrived : ∃ n', nodeStep sampleRules samplePubKeys n (sampleArrival 1) = .ok n' ∧
    n'.mempool.transactions = [sampleDecoyed 1]
  stays : ∃ n', run (nodeStep sampleRules samplePubKeys) n [sampleArrival 1, sampleNext []] =
    .ok n' ∧ n'.mempool.transactions = [sampleDecoyed 1]
  spent : ∃ n', run (nodeStep sampleRules samplePubKeys) n
    [sampleArrival 1, sampleNext [sampleDirect (sampleOut 0) 200]] = .ok n' ∧ decoySpent n' = true

theorem exists_grown : ∃ n, Grown n := by
  have hrun : succeeds sampleChecks
      (nodeStep sampleRules samplePubKeys sampleNode sampleGrowth) = true := by decide +kernel
  obtain ⟨n, hn, hchecks⟩ := succeeds_iff.mp hrun
  simp only [sampleChecks, Bool.and_eq_true, succeeds_iff, decide_eq_true_eq] at hchecks
  obtain ⟨⟨⟨⟨hrivals, hpair⟩, harrived⟩, hstays⟩, hspent⟩ := hchecks
  exact ⟨n, hn, hrivals, hpair, harrived, hstays, hspent⟩

end Sample

end Pricoin.NodeSteps
