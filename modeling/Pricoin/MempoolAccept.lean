import Pricoin.ActiveChain
import Pricoin.Mempool

/-!
Acceptance of loose transactions, alone and in packages. A transaction is checked
against the coins of the tip behind those of the pool, its conflicts in outpoints
and in key images are collected from the pool, and if it is accepted it takes their
place. The members of a package are checked one after the other against the same
pool and enter together: their outputs are made available to each other, but their
key images are only ever compared with those of the pool.
-/
namespace Pricoin.MempoolAccept

open ByteStreams Checks KeyImageFile Transactions Coins TxChecks BlockConnection ActiveChain
open Mempool

/-- What a call decides outside of coins and key images: standardness, finality, fees, the
transaction graph with its limits, scripts, and what is evicted for its age or for want of space. -/
structure Policy where
  requireStandard : Bool
  /-- The reason why a transaction is not standard. -/
  isStandardTx : Transaction → Option String
  checkFinalTxAtTip : Transaction → Bool
  haveCoinInCache : OutPoint → Bool
  checkSequenceLocks : Transaction → CoinsView → Bool
  validateInputsStandardness : Transaction → CoinsView → Except TxReject Unit
  isWitnessStandard : Transaction → CoinsView → Bool
  sigOpCost : Transaction → CoinsView → ℕ
  /-- The virtual size of a transaction with its signature operations. -/
  txSize : Transaction → ℕ → ℕ
  /-- A fee with what the user has added to it for the transaction. -/
  modifiedFee : Txid → ℤ → ℤ
  preCheckEphemeralTx : Transaction → ℤ → ℤ → Except TxReject Unit
  mempoolRejectFee : Pool → ℕ → ℤ
  minRelayFee : ℕ → ℤ
  incrementalRelayFee : ℕ → ℤ
  /-- A violation, with the sibling whose eviction would mend it. -/
  singleTRUCChecks : Pool → Transaction → List Txid → List Txid → ℕ → Option (Option Txid)
  packageTRUCChecks : Pool → Transaction → ℕ → List Transaction → List Txid → Bool
  checkEphemeralSpends : Pool → List Transaction → Except TxReject Unit
  uniqueClusterCount : Pool → List Txid → ℕ
  descendants : Descendants
  ancestors : Pool → Transaction → List Txid
  /-- The cluster limits, for the pool without some transactions and with others. -/
  checkPolicyLimits : Pool → List Txid → List Transaction → Bool
  improvesFeerateDiagram : Pool → List Txid → List Transaction → Bool
  checkInputScripts : Transaction → CoinsView → Except TxReject Unit
  checkInputsFromMempoolAndCache : Transaction → CoinsView → Except TxReject Unit
  /-- What `LimitMempoolSize` expires and trims. -/
  evicted : Pool → List Txid
  /-- What the graph gives up after a reorganization to keep its cluster limits. -/
  trimmed : Pool → List Txid
  /-- How many transactions the queue of disconnected ones drops to keep its memory limit. -/
  queueExcess : List Transaction → ℕ

structure ATMPArgs where
  bypassLimits : Bool
  testAccept : Bool
  allowReplacement : Bool
  allowSiblingEviction : Bool
  packageSubmission : Bool
  packageFeerates : Bool
  /-- A fee for a size. -/
  clientMaxfeerate : Option (ℤ × ℕ)

namespace ATMPArgs

def singleAccept (bypassLimits testAccept : Bool) : ATMPArgs :=
  ⟨bypassLimits, testAccept, true, true, false, false, none⟩

def packageTestAccept : ATMPArgs := ⟨false, true, false, false, false, false, none⟩

def packageChildWithParents (clientMaxfeerate : Option (ℤ × ℕ)) : ATMPArgs :=
  ⟨false, false, true, false, true, true, clientMaxfeerate⟩

def singleInPackageAccept (args : ATMPArgs) : ATMPArgs :=
  ⟨false, args.testAccept, true, true, true, false, args.clientMaxfeerate⟩

end ATMPArgs

inductive PackageValidationResult where
  | policy
  | tx
  | mempoolError
  deriving DecidableEq, Repr

structure PackageReject where
  result : PackageValidationResult
  reason : String
  deriving DecidableEq, Repr

def mempoolHeight : ℕ := 0x7FFFFFFF

def minStandardTxNonwitnessSize : ℕ := 65

def maxStandardTxSigOpsCost : ℕ := maxBlockSigOpsCost / 5

def maxReplacementCandidates : ℕ := 100

def maxPackageCount : ℕ := 25

def maxPackageWeight : ℕ := 404000

/-- The state of a transaction under evaluation. -/
structure Workspace where
  entry : Entry
  conflicts : List Txid
  parents : List Txid
  modifiedFees : ℤ
  siblingEviction : Bool

section View

variable (crypto : Crypto)

/-- The coin that an unconfirmed output counts as. It is never confidential. -/
def unconfirmedCoin (tx : Transaction) (n : ℕ) : Option Coin :=
  (tx.vout[n]?).map (fun out => .transparent out mempoolHeight false)

def packageCoins (tx : Transaction) : CoinsView := fun o =>
  if o.hash = crypto.txid tx then unconfirmedCoin tx o.n else none

/-- The coins of a package, of the pool and of the tip, in this order. -/
def viewMempool (added : CoinsView) (pool : Pool) (base : CoinsView) : CoinsView := fun o =>
  match added o with
  | some c => some c
  | none =>
    match pool.getEntry crypto o.hash with
    | some e => unconfirmedCoin e.tx o.n
    | none => base o

end View

section PreChecks

variable (crypto : Crypto) (policy : Policy) (args : ATMPArgs) (s : Chainstate)

def checkStandard (tx : Transaction) : Except TxReject Unit :=
  match policy.requireStandard, policy.isStandardTx tx with
  | true, some reason => .error ⟨.notStandard, reason⟩
  | _, _ => .ok ()

def checkFeeRate (pool : Pool) (size : ℕ) (fee : ℤ) : Except TxReject Unit := do
  rejectIf (0 < policy.mempoolRejectFee pool size ∧ fee < policy.mempoolRejectFee pool size)
    ⟨.reconsiderable, "mempool min fee not met"⟩
  rejectIf (fee < policy.minRelayFee size) ⟨.reconsiderable, "min relay fee not met"⟩

def missingInputs (tx : Transaction) : TxReject :=
  if (List.range tx.vout.length).any (fun i => policy.haveCoinInCache ⟨crypto.txid tx, i⟩) then
    ⟨.conflict, "txn-already-known"⟩
  else ⟨.missingInputs, "bad-txns-inputs-missingorspent"⟩

def spendsCoinbase (view : CoinsView) (tx : Transaction) : Bool :=
  tx.prevouts.any (fun o => ((view o).map (fun c => c.fCoinBase)).getD false)

/-- The transactions of the pool that spend an outpoint of the transaction. -/
def prevoutConflicts (pool : Pool) (tx : Transaction) : List Txid :=
  tx.prevouts.filterMap pool.getConflictTx

/-- The transactions of the pool with a key image of the transaction. -/
def keyImageConflicts (pool : Pool) (tx : Transaction) : List Txid :=
  (pool.mapTx.filter (fun e => overlap e.tx tx)).map (Entry.txid crypto)

/-- The checks on the fees and the position in the graph. -/
def checkPolicy (pool : Pool) (view : CoinsView) (tx : Transaction) (conflicts : List Txid)
    (baseFees : ℤ) : Except TxReject Workspace := do
  (if policy.requireStandard then policy.validateInputsStandardness tx view else .ok ())
  rejectIf (tx.hasWitness = true ∧ policy.requireStandard = true ∧
    policy.isWitnessStandard tx view = false) ⟨.witnessMutated, "bad-witness-nonstandard"⟩
  let nSigOpsCost := policy.sigOpCost tx view
  let e : Entry := ⟨tx, baseFees, policy.txSize tx nSigOpsCost, spendsCoinbase view tx⟩
  let modifiedFees := policy.modifiedFee (crypto.txid tx) baseFees
  (if policy.requireStandard then policy.preCheckEphemeralTx tx baseFees modifiedFees else .ok ())
  rejectIf (maxStandardTxSigOpsCost < nSigOpsCost) ⟨.notStandard, "bad-txns-too-many-sigops"⟩
  (if !args.bypassLimits && !args.packageFeerates then checkFeeRate policy pool e.vsize modifiedFees
  else .ok ())
  let parents := pool.getParents crypto tx
  match if args.bypassLimits then none
    else policy.singleTRUCChecks pool tx parents conflicts e.vsize with
  | none => .ok ⟨e, conflicts, parents, modifiedFees, false⟩
  | some sibling =>
    match args.allowSiblingEviction, sibling with
    | true, some sibling => .ok ⟨e, conflicts ++ [sibling], parents, modifiedFees, true⟩
    | _, _ => .error ⟨.mempoolPolicy, "TRUC-violation"⟩

/-- The checks without scripts, with the coins that the package has made available so far. -/
def preChecks (pool : Pool) (added : CoinsView) (tx : Transaction) :
    Except TxReject Workspace := do
  checkTransaction tx
  rejectIf (tx.isCoinBase = true) (badTx "coinbase")
  checkStandard policy tx
  rejectIf ((serializeNoWitness tx).length < minStandardTxNonwitnessSize)
    ⟨.notStandard, "tx-size-small"⟩
  rejectIf (policy.checkFinalTxAtTip tx = false) ⟨.prematureSpend, "non-final"⟩
  rejectIf (pool.existsWtxid crypto (crypto.wtxid tx) = true)
    ⟨.conflict, "txn-already-in-mempool"⟩
  rejectIf (pool.existsTxid crypto (crypto.txid tx) = true)
    ⟨.conflict, "txn-same-nonwitness-data-in-mempool"⟩
  rejectIf (args.allowReplacement = false ∧ prevoutConflicts pool tx ≠ [])
    ⟨.mempoolPolicy, "bip125-replacement-disallowed"⟩
  let view := viewMempool crypto added pool s.tip.coins
  rejectIf (∃ o ∈ tx.prevouts, view.haveCoin o = false) (missingInputs crypto policy tx)
  rejectIf (policy.checkSequenceLocks tx view = false) ⟨.prematureSpend, "non-BIP68-final"⟩
  let baseFees ← (if tx.version = pricoinCTVersion then
      verifyConfidentialContextual crypto tx view s.store.images.members s.chain.length
    else checkTxInputs tx view s.chain.length)
  rejectIf (args.allowReplacement = false ∧ keyImageConflicts crypto pool tx ≠ [])
    ⟨.mempoolPolicy, "bip125-replacement-disallowed"⟩
  checkPolicy crypto policy args pool view tx
    (prevoutConflicts pool tx ++ keyImageConflicts crypto pool tx) baseFees

end PreChecks

section Single

variable (crypto : Crypto) (policy : Policy) (args : ATMPArgs) (s : Chainstate)

/-- Direct conflicts with their descendants. -/
def allConflicts (pool : Pool) (conflicts : List Txid) : List Txid :=
  conflicts ++ policy.descendants pool conflicts

def conflictingFees (pool : Pool) (removals : List Txid) : ℤ :=
  ((pool.mapTx.filter (fun e => e.txid crypto ∈ removals)).map
    (fun e => policy.modifiedFee (e.txid crypto) e.nFee)).sum

/-- A replacement pays the fees of what it replaces and for its own bandwidth. -/
def paysForRBF (originalFees replacementFees : ℤ) (replacementVsize : ℕ) : Bool :=
  originalFees ≤ replacementFees &&
    policy.incrementalRelayFee replacementVsize ≤ replacementFees - originalFees

def exceedsMaxfeerate (fees : ℤ) (vsize : ℕ) : Bool :=
  match args.clientMaxfeerate with
  | none => false
  | some (fee, size) => fee * vsize < fees * size

def siblingNote (ws : Workspace) : String :=
  if ws.siblingEviction then " (including sibling eviction)" else ""

/-- The transactions to remove for a replacement. -/
def replacementChecks (pool : Pool) (ws : Workspace) : Except TxReject (List Txid) := do
  rejectIf (maxReplacementCandidates < policy.uniqueClusterCount pool ws.conflicts)
    ⟨.mempoolPolicy, "too many potential replacements" ++ siblingNote ws⟩
  let removals := allConflicts policy pool ws.conflicts
  rejectIf (paysForRBF policy (conflictingFees crypto policy pool removals) ws.modifiedFees
    ws.entry.vsize = false) ⟨.reconsiderable, "insufficient fee" ++ siblingNote ws⟩
  rejectIf (policy.checkPolicyLimits pool removals [ws.entry.tx] = false)
    ⟨.mempoolPolicy, "too-large-cluster"⟩
  rejectIf (policy.improvesFeerateDiagram pool removals [ws.entry.tx] = false)
    ⟨.reconsiderable, "replacement-failed"⟩
  .ok removals

/-- Ring inputs are authenticated by their signatures, not by scripts. -/
def scriptChecks (verify : Transaction → CoinsView → Except TxReject Unit) (tx : Transaction)
    (view : CoinsView) : Except TxReject Unit :=
  if tx.isV4Ring then .ok () else verify tx view

/-- Put the staged changes into effect. -/
def finalizeSubpackage (pool : Pool) (removals : List Txid) (entries : List Entry) : Pool :=
  entries.foldl (addNewTransaction crypto) (removeStaged crypto pool removals)

def limitMempoolSize (pool : Pool) : Pool := removeStaged crypto pool (policy.evicted pool)

/-- All checks of a single transaction, with what it replaces. -/
def checkSingle (pool : Pool) (tx : Transaction) : Except TxReject (Workspace × List Txid) := do
  let ws ← preChecks crypto policy args s pool (fun _ => none) tx
  let removals ← (if ws.conflicts ≠ [] then replacementChecks crypto policy pool ws else .ok [])
  rejectIf (policy.checkPolicyLimits pool removals [tx] = false)
    ⟨.mempoolPolicy, "too-large-cluster"⟩
  rejectIf (ws.conflicts ≠ [] ∧ ∃ txid ∈ policy.ancestors pool tx, txid ∈ ws.conflicts)
    (badTx "bad-txns-spends-conflicting-tx")
  rejectIf (exceedsMaxfeerate args ws.modifiedFees ws.entry.vsize = true)
    ⟨.mempoolPolicy, "max feerate exceeded"⟩
  (if !args.bypassLimits && policy.requireStandard then policy.checkEphemeralSpends pool [tx]
  else .ok ())
  let view := viewMempool crypto (fun _ => none) pool s.tip.coins
  scriptChecks policy.checkInputScripts tx view
  scriptChecks policy.checkInputsFromMempoolAndCache tx view
  .ok (ws, removals)

/-- `AcceptSingleTransactionInternal`: the pool behind it and the verdict. -/
def acceptSingleTransaction (pool : Pool) (tx : Transaction) : Pool × Except TxReject Unit :=
  match checkSingle crypto policy args s pool tx with
  | .error e => (pool, .error e)
  | .ok (ws, removals) =>
    if args.testAccept then (pool, .ok ())
    else
      let pool := finalizeSubpackage crypto pool removals [ws.entry]
      if args.packageSubmission || args.bypassLimits then (pool, .ok ())
      else
        let pool := limitMempoolSize crypto policy pool
        if pool.existsTxid crypto (crypto.txid tx) then (pool, .ok ())
        else (pool, .error ⟨.reconsiderable, "mempool full"⟩)

end Single

section Package

variable (crypto : Crypto) (policy : Policy) (args : ATMPArgs) (s : Chainstate)

def transactionWeight (tx : Transaction) : ℕ :=
  (serializeNoWitness tx).length * (witnessScaleFactor - 1) + (serializeWithWitness tx).length

/-- No transaction spends from itself or from a later one. -/
def isTopoSortedPackage : List Transaction → Bool
  | [] => true
  | tx :: txs => tx.prevouts.all (fun o => o.hash ∉ (tx :: txs).map crypto.txid) &&
      isTopoSortedPackage txs

/-- No two transactions spend the same outpoint. -/
def isConsistentPackage : List OutPoint → List Transaction → Bool
  | _, [] => true
  | seen, tx :: txs => !tx.vin.isEmpty && tx.prevouts.all (fun o => o ∉ seen) &&
      isConsistentPackage (seen ++ tx.prevouts) txs

def isWellFormedPackage (txns : List Transaction) : Except PackageReject Unit := do
  rejectIf (maxPackageCount < txns.length) ⟨.policy, "package-too-many-transactions"⟩
  rejectIf (1 < txns.length ∧ maxPackageWeight < (txns.map transactionWeight).sum)
    ⟨.policy, "package-too-large"⟩
  rejectIf (¬ (txns.map crypto.txid).Nodup) ⟨.policy, "package-contains-duplicates"⟩
  rejectIf (isTopoSortedPackage crypto txns = false) ⟨.policy, "package-not-sorted"⟩
  rejectIf (isConsistentPackage [] txns = false) ⟨.policy, "conflict-in-package"⟩

/-- The last transaction spends from each of the others. -/
def isChildWithParents (txns : List Transaction) : Bool :=
  match txns.getLast? with
  | none => false
  | some child => 1 < txns.length &&
      txns.dropLast.all (fun tx => crypto.txid tx ∈ child.prevouts.map (fun o => o.hash))

def transactionFailed : PackageReject := ⟨.tx, "transaction failed"⟩

def ofMember {α : Type} : Except TxReject α → Except PackageReject α
  | .ok a => .ok a
  | .error _ => .error transactionFailed

/-- The members in turn, each with the coins of those before it. -/
def preCheckAll (pool : Pool) : CoinsView → List Transaction → Except TxReject (List Workspace)
  | _, [] => .ok []
  | added, tx :: txs => do
    let ws ← preChecks crypto policy args s pool added tx
    rejectIf (exceedsMaxfeerate args ws.modifiedFees ws.entry.vsize = true)
      ⟨.mempoolPolicy, "max feerate exceeded"⟩
    let wss ← preCheckAll pool (overlay added (packageCoins crypto tx)) txs
    .ok (ws :: wss)

/-- The transactions to remove for a package of a parent and its child. -/
def packageRBFChecks (pool : Pool) (txns : List Transaction) (workspaces : List Workspace)
    (totalFees : ℤ) (totalVsize : ℕ) : Except PackageReject (List Txid) :=
  match workspaces with
  | [parent, child] => do
    rejectIf (isChildWithParents crypto txns = false)
      ⟨.policy, "package RBF failed: package must be 1-parent-1-child"⟩
    rejectIf (parent.parents ≠ [] ∨ child.parents ≠ [])
      ⟨.policy, "package RBF failed: new transaction cannot have mempool ancestors"⟩
    let conflicts := parent.conflicts ++ child.conflicts
    rejectIf (maxReplacementCandidates < policy.uniqueClusterCount pool conflicts)
      ⟨.policy, "package RBF failed: too many potential replacements"⟩
    let removals := allConflicts policy pool conflicts
    rejectIf (paysForRBF policy (conflictingFees crypto policy pool removals) totalFees
      totalVsize = false) ⟨.policy, "package RBF failed: insufficient anti-DoS fees"⟩
    rejectIf (totalFees * parent.entry.vsize ≤ parent.modifiedFees * totalVsize) ⟨.policy,
      "package RBF failed: package feerate is less than or equal to parent feerate"⟩
    rejectIf (policy.checkPolicyLimits pool removals txns = false) ⟨.policy, "too-large-cluster"⟩
    rejectIf (policy.improvesFeerateDiagram pool removals txns = false)
      ⟨.policy, "package RBF failed: insufficient feerate: does not improve feerate diagram"⟩
    .ok removals
  | _ => .error ⟨.policy, "package RBF failed: package must be 1-parent-1-child"⟩

/-- All checks of a package, with what it replaces. -/
def checkMultiple (pool : Pool) (txns : List Transaction) :
    Except PackageReject (List Workspace × List Txid) := do
  isWellFormedPackage crypto txns
  let workspaces ← ofMember (preCheckAll crypto policy args s pool (fun _ => none) txns)
  rejectIf (∃ ws ∈ workspaces, policy.packageTRUCChecks pool ws.entry.tx ws.entry.vsize txns
    ws.parents = false) ⟨.policy, "TRUC-violation"⟩
  let totalVsize := (workspaces.map (fun ws => ws.entry.vsize)).sum
  let totalFees := (workspaces.map (fun ws => ws.modifiedFees)).sum
  (if args.packageFeerates then ofMember (checkFeeRate policy pool totalVsize totalFees)
  else .ok ())
  let removals ← (if ∃ ws ∈ workspaces, ws.conflicts ≠ [] then
      packageRBFChecks crypto policy pool txns workspaces totalFees totalVsize
    else .ok [])
  rejectIf (policy.checkPolicyLimits pool removals txns = false) ⟨.policy, "too-large-cluster"⟩
  rejectIf (policy.requireStandard = true ∧ succeeds (fun _ => true)
    (policy.checkEphemeralSpends pool txns) = false) ⟨.tx, "unspent-dust"⟩
  let view := viewMempool crypto
    (txns.foldl (fun added tx => overlay added (packageCoins crypto tx)) (fun _ => none))
    pool s.tip.coins
  ofMember (checkAll (fun tx => scriptChecks policy.checkInputScripts tx view) txns)
  .ok (workspaces, removals)

/-- The members enter together. A member whose scripts then fail leaves again. -/
def submitPackage (pool : Pool) (workspaces : List Workspace) (removals : List Txid) :
    Pool × Except PackageReject Unit :=
  let pool := finalizeSubpackage crypto pool removals (workspaces.map (fun ws => ws.entry))
  let view := viewMempool crypto (fun _ => none) pool s.tip.coins
  let failed := workspaces.filter (fun ws => succeeds (fun _ => true)
    (scriptChecks policy.checkInputsFromMempoolAndCache ws.entry.tx view) = false)
  if failed = [] then (pool, .ok ())
  else (removeStaged crypto pool (failed.map (fun ws => ws.entry.txid crypto)),
    .error ⟨.mempoolError, "BUG! PolicyScriptChecks succeeded but ConsensusScriptChecks failed"⟩)

/-- `AcceptMultipleTransactionsInternal`: the pool behind it and the verdict. -/
def acceptMultipleTransactions (pool : Pool) (txns : List Transaction) :
    Pool × Except PackageReject Unit :=
  match checkMultiple crypto policy args s pool txns with
  | .error e => (pool, .error e)
  | .ok (workspaces, removals) =>
    if args.testAccept then (pool, .ok ())
    else submitPackage crypto policy s pool workspaces removals

def acceptSubPackage (pool : Pool) (subpackage : List Transaction) :
    Pool × Except PackageReject Unit :=
  match subpackage with
  | [tx] =>
    let result := acceptSingleTransaction crypto policy args.singleInPackageAccept s pool tx
    (result.1, ofMember result.2)
  | txns => acceptMultipleTransactions crypto policy args s pool txns

/-- The members of a package after each was tried alone. -/
structure Evaluation where
  pool : Pool
  /-- The members that are in the pool. -/
  present : List Transaction
  /-- The members to try as a package. -/
  txnsPackageEval : List Transaction
  quitEarly : Bool

/-- Only a failure for want of fees or inputs can be mended by the package. -/
def evaluateAlone (alone : Bool) (st : Evaluation) (tx : Transaction) : Evaluation :=
  if st.pool.existsWtxid crypto (crypto.wtxid tx) || st.pool.existsTxid crypto (crypto.txid tx) then
    { st with present := st.present ++ [tx] }
  else
    match acceptSingleTransaction crypto policy args.singleInPackageAccept s st.pool tx with
    | (pool, .ok _) => { st with pool := pool, present := st.present ++ [tx] }
    | (pool, .error e) =>
      if alone || (e.result ≠ .reconsiderable && e.result ≠ .missingInputs) then
        { st with pool := pool, quitEarly := true }
      else { st with pool := pool, txnsPackageEval := st.txnsPackageEval ++ [tx] }

def evaluateEach (pool : Pool) (package : List Transaction) : Evaluation :=
  package.foldl (evaluateAlone crypto policy args s (package.length = 1)) ⟨pool, [], [], false⟩

/-- The members that are tried together. -/
def evaluatedTogether (pool : Pool) (package : List Transaction) : List Transaction :=
  let st := evaluateEach crypto policy args s pool package
  if st.quitEarly then [] else st.txnsPackageEval

def submitEvaluated (st : Evaluation) : Pool × Except PackageReject Unit :=
  if st.quitEarly then (st.pool, .error transactionFailed)
  else if st.txnsPackageEval = [] then (st.pool, .ok ())
  else acceptSubPackage crypto policy args s st.pool st.txnsPackageEval

/-- The members in turn, then those together that need each other, and a last look at what the
size limit has left of them. -/
def acceptPackage (pool : Pool) (package : List Transaction) : Pool × Except PackageReject Unit :=
  match isWellFormedPackage crypto package with
  | .error e => (pool, .error e)
  | .ok _ =>
    if 1 < package.length && !isChildWithParents crypto package then
      (pool, .error ⟨.policy, "package-not-child-with-parents"⟩)
    else
      let st := evaluateEach crypto policy args s pool package
      let result := submitEvaluated crypto policy args s st
      let submitted := st.present ++ if succeeds (fun _ => true) result.2 then
        st.txnsPackageEval else []
      let pool := limitMempoolSize crypto policy result.1
      if submitted.any (fun tx => !pool.existsTxid crypto (crypto.txid tx)) then
        (pool, .error transactionFailed)
      else (pool, result.2)

end Package

section Entry

variable (crypto : Crypto) (policy : Policy) (s : Chainstate)

def acceptToMemoryPool (bypassLimits testAccept : Bool) (pool : Pool) (tx : Transaction) :
    Pool × Except TxReject Unit :=
  acceptSingleTransaction crypto policy (.singleAccept bypassLimits testAccept) s pool tx

def processNewPackage (testAccept : Bool) (clientMaxfeerate : Option (ℤ × ℕ)) (pool : Pool)
    (package : List Transaction) : Pool × Except PackageReject Unit :=
  if testAccept then acceptMultipleTransactions crypto policy .packageTestAccept s pool package
  else acceptPackage crypto policy (.packageChildWithParents clientMaxfeerate) s pool package

end Entry

end Pricoin.MempoolAccept
