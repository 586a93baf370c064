import Pricoin.NodeSteps

/-!
Key images in the memory pool. Whatever happens to a node, no transaction of its
pool has a key image that the active chain has used. No two transactions of the pool
share one either, unless they entered together as members of one package: the
members are compared with the pool but not with each other.
-/
namespace Pricoin.MempoolImages

open Checks Runs TaggedSets KeyImageFile KeyImageStore Transactions Coins TxChecks BlockConnection
open List
open UndoCodec BlockDisconnection ConnectDisconnect ActiveChain Mempool MempoolAccept
open MempoolAdmission NodeSteps

variable {s' : Chainstate} {r : Reorganizing}

/-- No two of the transactions share a key image. -/
def ImagesApart (txs : List Transaction) : Prop := txs.Pairwise (fun tx tx' => ¬ overlap tx tx')

instance (txs : List Transaction) : Decidable (ImagesApart txs) :=
  inferInstanceAs (Decidable (txs.Pairwise (fun tx tx' => ¬ overlap tx tx')))

/-- Every key image of the pool is that of one transaction, and new to the chain. -/
structure ImagesExclusive (s : Chainstate) (pool : Pool) : Prop where
  apart : ImagesApart pool.transactions
  uncommitted : ∀ tx ∈ pool.transactions, ∀ ki ∈ tx.keyImages, ki ∉ s.store.images.members

/-- The members of a package that are tried together do not share key images. -/
def PackagesApart (rules : Rules) (n : Node) : Event → Prop
  | .package policy package false clientMaxfeerate =>
    ImagesApart (evaluatedTogether rules.crypto policy
      (.packageChildWithParents clientMaxfeerate) n.chainstate n.mempool package)
  | _ => True

theorem transactions_sublist {pool pool' : Pool} (h : pool'.mapTx.Sublist pool.mapTx) :
    pool'.transactions.Sublist pool.transactions :=
  h.map _

variable {crypto : Crypto} {s : Chainstate} {pool pool' : Pool}

/-- Checked transactions that do not share key images with each other keep the pool exclusive. -/
theorem ImagesExclusive.extend {added : List Workspace} (h : ImagesExclusive s pool)
    (hadmitted : Admitted crypto s pool pool' added)
    (hapart : ImagesApart (added.map (fun ws => ws.entry.tx))) : ImagesExclusive s pool' := by
  obtain ⟨kept, hkept, hpool, hconflicts⟩ := hadmitted.kept
  have hsub : pool'.transactions.Sublist
      (kept.map (fun e => e.tx) ++ added.map (fun ws => ws.entry.tx)) := by
    have := hpool.map (fun e => e.tx)
    rwa [map_append, map_map] at this
  have hold : (kept.map (fun e => e.tx)).Sublist pool.transactions := hkept.map _
  refine ⟨List.Pairwise.sublist hsub (pairwise_append.mpr
    ⟨List.Pairwise.sublist hold h.apart, hapart, ?_⟩), fun tx htx => ?_⟩
  · intro tx htx tx' htx' hover
    obtain ⟨e, he, rfl⟩ := mem_map.mp htx
    obtain ⟨ws, hws, rfl⟩ := mem_map.mp htx'
    exact hconflicts e he ws hws ((hadmitted.checked ws hws).rivals e (hkept.subset he) hover)
  · rcases mem_append.mp (hsub.subset htx) with htx | htx
    · exact h.uncommitted tx (hold.subset htx)
    · obtain ⟨ws, hws, rfl⟩ := mem_map.mp htx
      exact (hadmitted.checked ws hws).fresh

theorem imagesApart_of_length_le {txs : List Transaction} (h : txs.length ≤ 1) :
    ImagesApart txs := by
  match txs, h with
  | [], _ => exact List.Pairwise.nil
  | [tx], _ => exact pairwise_singleton _ tx

theorem ImagesExclusive.extend_single {added : List Workspace} (h : ImagesExclusive s pool)
    (hlen : added.length ≤ 1) (hadmitted : Admitted crypto s pool pool' added) :
    ImagesExclusive s pool' :=
  h.extend hadmitted (imagesApart_of_length_le (by simpa using hlen))

theorem ImagesExclusive.shrink (h : ImagesExclusive s pool) (hsub : pool'.mapTx.Sublist pool.mapTx)
    (hstore : s'.store.images.members ⊆ s.store.images.members) : ImagesExclusive s' pool' :=
  ⟨List.Pairwise.sublist (transactions_sublist hsub) h.apart, fun tx htx ki hki hmem =>
    h.uncommitted tx ((transactions_sublist hsub).subset htx) ki hki (hstore hmem)⟩

theorem imagesExclusive_acceptPackage {policy : Policy} {args : ATMPArgs}
    {package : List Transaction}
    (hapart : ImagesApart (evaluatedTogether crypto policy args s pool package))
    (h : ImagesExclusive s pool) :
    ImagesExclusive s (acceptPackage crypto policy args s pool package).1 := by
  refine acceptPackage_invariant (ImagesExclusive s)
    (fun pool' pool'' added hadded hstaged hpool => ?_) h
  rcases hadded with hlen | htxs
  · exact hpool.extend_single hlen hstaged.admitted
  · exact hpool.extend hstaged.admitted (htxs ▸ hapart)

theorem imagesExclusive_processNewPackage {policy : Policy} {testAccept : Bool}
    {clientMaxfeerate : Option (ℤ × ℕ)} {package : List Transaction}
    (hapart : testAccept = false → ImagesApart (evaluatedTogether crypto policy
      (.packageChildWithParents clientMaxfeerate) s pool package)) (h : ImagesExclusive s pool) :
    ImagesExclusive s
      (processNewPackage crypto policy s testAccept clientMaxfeerate pool package).1 := by
  unfold processNewPackage
  split
  · -- a test leaves the pool as it is
    have htest : (acceptMultipleTransactions crypto policy .packageTestAccept s pool package).1 =
        pool := by
      unfold acceptMultipleTransactions
      split
      · rfl
      · rfl
    rwa [htest]
  · rename_i hsubmit
    exact imagesExclusive_acceptPackage (hapart (Bool.eq_false_iff.mpr hsubmit)) h

variable {rules : Rules} {keys : PubKeys} {policy : Policy}

theorem members_disconnectTip {s : Chainstate} (h : disconnectTip rules keys s = .ok s') :
    s'.store.images.members ⊆ s.store.images.members := by
  obtain ⟨pindex, block, rest, d, -, hd, -, rfl⟩ := disconnectTip_ok h
  obtain ⟨-, -, -, -, -, -, -, -, -, -, rfl⟩ := disconnectBlock_ok.mp hd
  exact members_uncommitBlockKIs_subset s.store pindex.hash

theorem members_connectTip {s : Chainstate} {b : ActiveBlock}
    (h : connectTip rules keys b.1 b.2 s = .ok s') {ki : Point}
    (hki : ki ∈ s'.store.images.members) : ki ∈ s.store.images.members ∨ ki ∈ b.2.keyImages := by
  obtain ⟨-, c, hc, rfl⟩ := connectTip_ok h
  rcases connectBlock_ok hc with ⟨-, -, -, rfl⟩ | ⟨p, hconn⟩
  · exact .inl hki
  · obtain ⟨hkis, -⟩ := hconn.images
    obtain rfl := hconn.result
    rw [← hkis]
    exact members_commitBlockKIs.mp hki

/-- What a block commits to has left the pool. -/
theorem imagesExclusive_connectTipAndEvict {b : ActiveBlock} {r' : Reorganizing}
    (hstep : connectTipAndEvict rules keys policy b r = .ok r')
    (h : ImagesExclusive r.node.chainstate r.node.mempool) :
    ImagesExclusive r'.node.chainstate r'.node.mempool := by
  obtain ⟨hconnect, hpool⟩ := connectTipAndEvict_ok hstep
  have hsub : r'.node.mempool.mapTx.Sublist r.node.mempool.mapTx :=
    hpool ▸ (removedFrom_removeForBlock r.node.mempool b.2.vtx).sublist
  refine ⟨List.Pairwise.sublist (transactions_sublist hsub) h.apart, fun tx htx ki hki hmem => ?_⟩
  rcases members_connectTip hconnect hmem with hold | hblock
  · exact h.uncommitted tx ((transactions_sublist hsub).subset htx) ki hki hold
  · obtain ⟨tx', htx', hki'⟩ := mem_flatMap.mp hblock
    obtain ⟨e, he, rfl⟩ := mem_map.mp htx
    rw [hpool] at he
    exact (removeForBlock_apart he tx' htx').2 ⟨ki, hki, hki'⟩

theorem imagesExclusive_disconnectTipAndQueue {r' : Reorganizing}
    (hstep : disconnectTipAndQueue rules keys policy r = .ok r')
    (h : ImagesExclusive r.node.chainstate r.node.mempool) :
    ImagesExclusive r'.node.chainstate r'.node.mempool := by
  obtain ⟨hdisconnect, hremoved⟩ := disconnectTipAndQueue_ok hstep
  exact h.shrink hremoved.sublist (members_disconnectTip hdisconnect)

theorem imagesExclusive_maybeUpdateMempoolForReorg {fAddToMempool : Bool} {n : Node}
    (hupdate : maybeUpdateMempoolForReorg rules policy fAddToMempool r = .ok n)
    (h : ImagesExclusive r.node.chainstate r.node.mempool) :
    ImagesExclusive n.chainstate n.mempool := by
  obtain ⟨hs, hpool⟩ := maybeUpdateMempoolForReorg_invariant
    (ImagesExclusive r.node.chainstate) hupdate
    (fun pool pool' added hlen hstaged hp => hp.extend_single hlen hstaged.admitted) h
  rwa [hs]

theorem imagesExclusive_nodeStep {n n' : Node} {e : Event} (hapart : PackagesApart rules n e)
    (hstep : nodeStep rules keys n e = .ok n') (h : ImagesExclusive n.chainstate n.mempool) :
    ImagesExclusive n'.chainstate n'.mempool := by
  cases e with
  | transaction policy tx bypassLimits testAccept =>
    rw [nodeStep, Except.ok.injEq] at hstep
    subst hstep
    obtain ⟨added, hlen, hstaged⟩ := acceptSingleTransaction_staged rules.crypto policy
      (.singleAccept bypassLimits testAccept) n.chainstate n.mempool tx
    exact h.extend_single hlen hstaged.admitted
  | package policy package testAccept clientMaxfeerate =>
    rw [nodeStep, Except.ok.injEq] at hstep
    subst hstep
    refine imagesExclusive_processNewPackage (fun hsubmit => ?_) h
    subst hsubmit
    exact hapart
  | activate policy disconnects connects =>
    obtain ⟨r, r', hr, hr', hend⟩ := activateBestChainStep_ok hstep
    have hdown := disconnectTips_invariant
      (fun _ _ ht => imagesExclusive_disconnectTipAndQueue ht) hr h
    have hup := connectTips_invariant
      (fun b _ _ _ ht => imagesExclusive_connectTipAndEvict ht) hr' hdown
    rcases hend with rfl | hend
    · exact hup
    · exact imagesExclusive_maybeUpdateMempoolForReorg hend hup
  | invalidate policy fAddToMempool =>
    obtain ⟨r, hr, hend⟩ := invalidateTip_ok hstep
    exact imagesExclusive_maybeUpdateMempoolForReorg hend
      (imagesExclusive_disconnectTipAndQueue hr h)

/-- In every run from an empty pool in which no package is tried whose members share a key image,
the pool is exclusive in its key images. -/
theorem imagesExclusive_of_packagesApart {n n' : Node} {events : List Event}
    (hempty : n.mempool = emptyPool)
    (hapart : AlwaysOk (nodeStep rules keys) (PackagesApart rules) n events)
    (h : run (nodeStep rules keys) n events = .ok n') :
    ImagesExclusive n'.chainstate n'.mempool := by
  refine hapart.invariant (fun t => ImagesExclusive t.chainstate t.mempool)
    (fun t e t' hcond hstep ht => imagesExclusive_nodeStep hcond hstep ht) h ?_
  rw [hempty]
  exact ⟨List.Pairwise.nil, by simp [emptyPool, Pool.transactions]⟩

theorem evaluateAlone_sublist {policy : Policy} {args : ATMPArgs} (alone : Bool) (st : Evaluation)
    (tx : Transaction) : (evaluateAlone crypto policy args s alone st tx).txnsPackageEval.Sublist
      (st.txnsPackageEval ++ [tx]) := by
  unfold evaluateAlone
  split
  · exact sublist_append_left _ _
  · split
    · exact sublist_append_left _ _
    · split
      · exact sublist_append_left _ _
      · exact List.Sublist.refl _

theorem evaluatedTogether_sublist {args : ATMPArgs} (package : List Transaction) :
    (evaluatedTogether crypto policy args s pool package).Sublist package := by
  have hfold (alone : Bool) (txs : List Transaction) (st : Evaluation) :
      (txs.foldl (evaluateAlone crypto policy args s alone) st).txnsPackageEval.Sublist
        (st.txnsPackageEval ++ txs) := by
    induction txs generalizing st with
    | nil => simp
    | cons tx txs ih =>
      refine (ih _).trans ?_
      simpa using (evaluateAlone_sublist alone st tx).append_right txs
  unfold evaluatedTogether
  dsimp only
  split
  · exact nil_sublist _
  · exact hfold _ package ⟨pool, [], [], false⟩

/-- It is enough that the members of each package that is submitted share no key images. -/
theorem packagesApart_of_members {n : Node} {events : List Event}
    (h : ∀ policy package clientMaxfeerate,
      .package policy package false clientMaxfeerate ∈ events → ImagesApart package) :
    AlwaysOk (nodeStep rules keys) (PackagesApart rules) n events := by
  refine alwaysOk_of_forall (fun e he t => ?_) n
  unfold PackagesApart
  split
  · exact List.Pairwise.sublist (evaluatedTogether_sublist _) (h _ _ _ he)
  · trivial

/-- A parent without a fee and a child that pays for both spend the same output by ring. The
child's marker is the parent's output, so that they conflict in no outpoint. -/
theorem not_imagesExclusive_pair :
    ∃ n, run (nodeStep sampleRules samplePubKeys) sampleNode
        [sampleGrowth, samplePair (sampleChild 0 50)] = .ok n ∧
      ¬ ImagesExclusive n.chainstate n.mempool := by
  obtain ⟨n, hn⟩ := exists_grown
  obtain ⟨n', hpair, htxs⟩ := hn.rivals
  refine ⟨n', ?_, fun h => ?_⟩
  · simp only [run, bind_ok, Except.ok.injEq]
    exact ⟨n, hn.grown, n', hpair, rfl⟩
  · have hapart := h.apart
    rw [htxs] at hapart
    exact absurd hapart (by decide +kernel)

theorem imagesExclusive_of_packagesApart_pair :
    ∃ n, run (nodeStep sampleRules samplePubKeys) sampleNode
        [sampleGrowth, samplePair (sampleChild 1 51)] = .ok n ∧
      n.mempool.transactions = [sampleParent, sampleChild 1 51] ∧
      ImagesExclusive n.chainstate n.mempool := by
  obtain ⟨n, hn⟩ := exists_grown
  obtain ⟨n', hpair, htxs⟩ := hn.pair
  have hrun : run (nodeStep sampleRules samplePubKeys) sampleNode
      [sampleGrowth, samplePair (sampleChild 1 51)] = .ok n' := by
    simp only [run, bind_ok, Except.ok.injEq]
    exact ⟨n, hn.grown, n', hpair, rfl⟩
  refine ⟨n', hrun, htxs, imagesExclusive_of_packagesApart rfl (packagesApart_of_members ?_) hrun⟩
  intro policy package clientMaxfeerate hmem
  rcases mem_cons.mp hmem with heq | hmem
  · cases heq
  · cases mem_singleton.mp hmem
    decide +kernel

end Pricoin.MempoolImages
