import Pricoin.MempoolAccept

/-!
What an acceptance does to the pool. Some checked transactions enter it, and every
transaction that they conflict with has left, with any others that the policy wants
gone. A single acceptance admits one transaction at most. An acceptance of a package
is a sequence of admissions, of which only the last can be of several transactions,
those that were tried together.
-/
namespace Pricoin.MempoolAdmission

open Checks KeyImageFile Transactions Coins TxChecks ActiveChain Mempool MempoolAccept List

variable {tx : Transaction} {added : CoinsView} {ws : Workspace} {pool pool' : Pool}
  {removals : List Txid} {txns : List Transaction} {workspaces : List Workspace}

variable {crypto : Crypto} {policy : Policy} {args : ATMPArgs} {s : Chainstate} {pool : Pool}

/-- Coins of unconfirmed outputs only. -/
def Unconfirmed (added : CoinsView) : Prop := ∀ o c, added o = some c → c.fConfidential = false

theorem unconfirmed_none : Unconfirmed (fun _ => none) := by
  intro o c h
  contradiction

theorem not_confidential_unconfirmedCoin {n : ℕ} {c : Coin} (h : unconfirmedCoin tx n = some c) :
    c.fConfidential = false := by
  obtain ⟨out, -, rfl⟩ := Option.map_eq_some_iff.mp h
  rfl

theorem Unconfirmed.overlay (h : Unconfirmed added) (tx : Transaction) :
    Unconfirmed (overlay added (packageCoins crypto tx)) := by
  intro o c hc
  rcases Option.or_eq_some_iff.mp hc with hc | ⟨-, hc⟩
  · exact h o c hc
  · unfold packageCoins at hc
    split at hc
    · exact not_confidential_unconfirmedCoin hc
    · contradiction

/-- A confidential coin that an acceptance sees is one of the tip. -/
theorem Unconfirmed.base {base : CoinsView} (h : Unconfirmed added) {o : OutPoint} {c : Coin}
    (hc : viewMempool crypto added pool base o = some c) (hconf : c.fConfidential = true) :
    base o = some c := by
  unfold viewMempool at hc
  split at hc
  · rename_i c' hadded
    rw [← Option.some.inj hc, h o c' hadded] at hconf
    contradiction
  · split at hc
    · rw [not_confidential_unconfirmedCoin hc] at hconf
      contradiction
    · exact hc

/-- What a transaction has passed before it is staged. -/
structure PreChecked (crypto : Crypto) (s : Chainstate) (pool : Pool) (tx : Transaction)
    (ws : Workspace) : Prop where
  entry : ws.entry.tx = tx
  sound : TxSound tx
  loose : tx.isCoinBase = false
  context : ∃ added fee, Unconfirmed added ∧ verifyConfidentialContextual crypto tx
    (viewMempool crypto added pool s.tip.coins) s.store.images.members s.chain.length = .ok fee
  rivals : ∀ e ∈ pool.mapTx, overlap e.tx tx → e.txid crypto ∈ ws.conflicts

theorem checkPolicy_ok {view : CoinsView} {conflicts : List Txid} {fees : ℤ}
    (h : checkPolicy crypto policy args pool view tx conflicts fees = .ok ws) :
    ws.entry.tx = tx ∧ conflicts ⊆ ws.conflicts := by
  simp only [checkPolicy, bind_ok] at h
  obtain ⟨-, -, -, -, -, -, -, -, -, -, h⟩ := h
  split at h
  · rw [Except.ok.injEq] at h
    subst h
    exact ⟨rfl, List.Subset.refl _⟩
  · split at h
    · rw [Except.ok.injEq] at h
      subst h
      exact ⟨rfl, subset_append_left _ _⟩
    · contradiction

theorem preChecks_ok (hadded : Unconfirmed added)
    (h : preChecks crypto policy args s pool added tx = .ok ws) :
    PreChecked crypto s pool tx ws := by
  simp only [preChecks, bind_ok, rejectIf_ok, Bool.not_eq_true] at h
  obtain ⟨u, htx, -, hcb, -, -, -, -, -, -, -, -, -, -, -, -, -, -, -, -, fee, hfee, -, -, h⟩ := h
  have hsound := checkTransaction_ok htx
  obtain ⟨hentry, hconflicts⟩ := checkPolicy_ok h
  rw [if_pos (hsound.version hcb)] at hfee
  refine ⟨hentry, hsound, hcb, ⟨added, fee, hadded, hfee⟩, fun e he hover => ?_⟩
  refine hconflicts (mem_append_right _ (mem_map_of_mem (mem_filter.mpr ⟨he, ?_⟩)))
  exact decide_eq_true hover

/-- A transaction that passes is not in the pool under its txid. -/
theorem preChecks_absent (h : preChecks crypto policy args s pool added tx = .ok ws) :
    ∀ e ∈ pool.mapTx, e.txid crypto ≠ crypto.txid tx := by
  simp only [preChecks, bind_ok, rejectIf_ok, Bool.not_eq_true] at h
  obtain ⟨-, -, -, -, -, -, -, -, -, -, -, -, -, habsent, -⟩ := h
  simpa [Pool.existsTxid] using habsent

theorem PreChecked.contextSound (h : PreChecked crypto s pool tx ws) :
    ∃ added, Unconfirmed added ∧ ∀ ri ∈ tx.ringInputs, RingInputSound crypto
      (viewMempool crypto added pool s.tip.coins) s.store.images.members s.chain.length
      (crypto.computeRingMessage tx) ri := by
  obtain ⟨added, fee, hadded, hfee⟩ := h.context
  exact ⟨added, hadded, (verifyConfidentialContextual_ok hfee).ringInputs h.sound⟩

/-- An accepted transaction has key images that the chain has not used. -/
theorem PreChecked.fresh (h : PreChecked crypto s pool tx ws) :
    ∀ ki ∈ tx.keyImages, ki ∉ s.store.images.members := by
  obtain ⟨added, fee, -, hfee⟩ := h.context
  exact (verifyConfidentialContextual_ok hfee).fresh h.sound

/-- The ring members of an accepted transaction are confidential coins of the tip. -/
theorem PreChecked.members (h : PreChecked crypto s pool tx ws) :
    ∀ ri ∈ tx.ringInputs, ∀ ref ∈ ri.ring,
      ∃ c, s.tip.coins ref.outPoint = some c ∧ c.fConfidential = true := by
  obtain ⟨added, hadded, hrings⟩ := h.contextSound
  intro ri hri ref href
  obtain ⟨c, hc, hconf⟩ := (hrings ri hri).members ref href
  exact ⟨c, hadded.base hc hconf, hconf⟩

/-- Some checked transactions enter the pool and their conflicts leave it. More may leave. -/
structure Admitted (crypto : Crypto) (s : Chainstate) (pool pool' : Pool)
    (added : List Workspace) : Prop where
  checked : ∀ ws ∈ added, PreChecked crypto s pool ws.entry.tx ws
  kept : ∃ kept : List Entry, kept.Sublist pool.mapTx ∧
    pool'.mapTx.Sublist (kept ++ added.map (fun ws => ws.entry)) ∧
    ∀ e ∈ kept, ∀ ws ∈ added, e.txid crypto ∉ ws.conflicts

/-- Checked transactions with new txids enter the pool that their conflicts have left, and some
transactions may leave again. -/
structure Staged (crypto : Crypto) (s : Chainstate) (pool pool' : Pool)
    (added : List Workspace) : Prop where
  checked : ∀ ws ∈ added, PreChecked crypto s pool ws.entry.tx ws
  absent : ∀ ws ∈ added, ∀ e ∈ pool.mapTx, e.txid crypto ≠ ws.entry.txid crypto
  distinct : (added.map (fun ws => ws.entry.txid crypto)).Nodup
  result : ∃ removals, (∀ ws ∈ added, ws.conflicts ⊆ removals) ∧ RemovedFrom crypto
    (finalizeSubpackage crypto pool removals (added.map (fun ws => ws.entry))) pool'

theorem staged_nil (h : RemovedFrom crypto pool pool') : Staged crypto s pool pool' [] :=
  ⟨by simp, by simp, nodup_nil, [], by simp, h⟩

theorem Staged.shrink {pool'' : Pool} {added : List Workspace}
    (h : Staged crypto s pool pool' added) (hremoved : RemovedFrom crypto pool' pool'') :
    Staged crypto s pool pool'' added := by
  obtain ⟨removals, hconflicts, hresult⟩ := h.result
  exact ⟨h.checked, h.absent, h.distinct, removals, hconflicts, hresult.trans hremoved⟩

theorem foldl_addNewTransaction (pool : Pool) (entries : List Entry) :
    (entries.foldl (addNewTransaction crypto) pool).mapTx = pool.mapTx ++ entries := by
  induction entries generalizing pool with
  | nil => simp
  | cons e entries ih => simp [ih, addNewTransaction]

theorem Staged.admitted {added : List Workspace} (h : Staged crypto s pool pool' added) :
    Admitted crypto s pool pool' added := by
  obtain ⟨removals, hconflicts, hresult⟩ := h.result
  have hleft : RemovedFrom crypto pool (removeStaged crypto pool removals) :=
    removedFrom_removeStaged pool removals
  refine ⟨h.checked, (removeStaged crypto pool removals).mapTx, hleft.sublist, ?_, ?_⟩
  · have hsub := hresult.sublist
    rwa [finalizeSubpackage, foldl_addNewTransaction] at hsub
  · intro e he ws hws hmem
    exact (mem_removeStaged.mp he).2 (hconflicts ws hws hmem)

theorem removedFrom_limitMempoolSize (pool : Pool) :
    RemovedFrom crypto pool (limitMempoolSize crypto policy pool) :=
  removedFrom_removeStaged pool _

theorem replacementChecks_ok (h : replacementChecks crypto policy pool ws = .ok removals) :
    ws.conflicts ⊆ removals := by
  simp only [replacementChecks, bind_ok, Except.ok.injEq] at h
  obtain ⟨-, -, -, -, -, -, -, -, rfl⟩ := h
  exact subset_append_left _ _

theorem checkSingle_ok (h : checkSingle crypto policy args s pool tx = .ok (ws, removals)) :
    PreChecked crypto s pool tx ws ∧ (∀ e ∈ pool.mapTx, e.txid crypto ≠ crypto.txid tx) ∧
    ws.conflicts ⊆ removals := by
  simp only [checkSingle, bind_ok, Except.ok.injEq, Prod.mk.injEq] at h
  obtain ⟨_, hpre, _, hremovals, -, -, -, -, -, -, -, -, -, -, -, -, rfl, rfl⟩ := h
  refine ⟨preChecks_ok unconfirmed_none hpre, preChecks_absent hpre, ?_⟩
  split at hremovals
  · exact replacementChecks_ok hremovals
  · rename_i hnone
    rw [not_not.mp hnone]
    exact nil_subset _

/-- A single transaction enters with its conflicts gone, or not at all. -/
theorem acceptSingleTransaction_staged (crypto : Crypto) (policy : Policy) (args : ATMPArgs)
    (s : Chainstate) (pool : Pool) (tx : Transaction) :
    ∃ added, added.length ≤ 1 ∧
      Staged crypto s pool (acceptSingleTransaction crypto policy args s pool tx).1 added := by
  have hfail : ∃ added : List Workspace, added.length ≤ 1 ∧ Staged crypto s pool pool added :=
    ⟨[], by simp, staged_nil (RemovedFrom.refl pool)⟩
  unfold acceptSingleTransaction
  split
  · exact hfail
  · rename_i ws removals hcheck
    obtain ⟨hpre, habsent, hconflicts⟩ := checkSingle_ok hcheck
    have hstaged : Staged crypto s pool (finalizeSubpackage crypto pool removals [ws.entry]) [ws] :=
      { checked := forall_mem_singleton.mpr (hpre.entry.symm ▸ hpre)
        absent := forall_mem_singleton.mpr (by rwa [Entry.txid, hpre.entry])
        distinct := nodup_singleton _
        result := ⟨removals, forall_mem_singleton.mpr hconflicts, RemovedFrom.refl _⟩ }
    split
    · exact hfail
    · refine ⟨[ws], by simp, ?_⟩
      dsimp only
      split
      · exact hstaged
      · split
        · exact hstaged.shrink (removedFrom_limitMempoolSize _)
        · exact hstaged.shrink (removedFrom_limitMempoolSize _)

theorem preCheckAll_ok (hadded : Unconfirmed added)
    (h : preCheckAll crypto policy args s pool added txns = .ok workspaces) :
    workspaces.map (fun ws => ws.entry.tx) = txns ∧
    (∀ ws ∈ workspaces, PreChecked crypto s pool ws.entry.tx ws) ∧
    ∀ ws ∈ workspaces, ∀ e ∈ pool.mapTx, e.txid crypto ≠ ws.entry.txid crypto := by
  induction txns generalizing added workspaces with
  | nil =>
    rw [preCheckAll, Except.ok.injEq] at h
    subst h
    simp
  | cons tx txns ih =>
    simp only [preCheckAll, bind_ok, Except.ok.injEq] at h
    obtain ⟨ws, hws, -, -, wss, hwss, rfl⟩ := h
    obtain ⟨htxs, hchecked, habsent⟩ := ih (hadded.overlay tx) hwss
    have hpre := preChecks_ok hadded hws
    refine ⟨by rw [map_cons, htxs, hpre.entry], forall_mem_cons.mpr ⟨?_, hchecked⟩,
      forall_mem_cons.mpr ⟨?_, habsent⟩⟩
    · rw [hpre.entry]
      exact hpre
    · rw [Entry.txid, hpre.entry]
      exact preChecks_absent hws

theorem packageRBFChecks_ok {totalFees : ℤ} {totalVsize : ℕ}
    (h : packageRBFChecks crypto policy pool txns workspaces totalFees totalVsize = .ok removals) :
    ∀ ws ∈ workspaces, ws.conflicts ⊆ removals := by
  unfold packageRBFChecks at h
  split at h
  · simp only [bind_ok, Except.ok.injEq] at h
    obtain ⟨-, -, -, -, -, -, -, -, -, -, -, -, -, -, rfl⟩ := h
    simp only [forall_mem_cons, not_mem_nil, false_implies, implies_true, and_true]
    exact ⟨subset_append_of_subset_left _ (subset_append_left _ _),
      subset_append_of_subset_left _ (subset_append_right _ _)⟩
  · contradiction

@[simp] theorem ofMember_ok {α : Type} {x : Except TxReject α} {a : α} :
    ofMember x = .ok a ↔ x = .ok a := by
  cases x <;> simp [ofMember]

theorem isWellFormedPackage_ok (h : isWellFormedPackage crypto txns = .ok ()) :
    (txns.map crypto.txid).Nodup := by
  simp only [isWellFormedPackage, bind_ok, rejectIf_ok, not_not] at h
  obtain ⟨-, -, -, -, -, hdistinct, -⟩ := h
  exact hdistinct

theorem checkMultiple_ok
    (h : checkMultiple crypto policy args s pool txns = .ok (workspaces, removals)) :
    workspaces.map (fun ws => ws.entry.tx) = txns ∧
    Staged crypto s pool (finalizeSubpackage crypto pool removals
      (workspaces.map (fun ws => ws.entry))) workspaces := by
  simp only [checkMultiple, bind_ok, ofMember_ok, Except.ok.injEq, Prod.mk.injEq] at h
  obtain ⟨_, hformed, _, hpre, -, -, -, -, _, hremovals, -, -, -, -, -, -, rfl, rfl⟩ := h
  obtain ⟨htxs, hchecked, habsent⟩ := preCheckAll_ok unconfirmed_none hpre
  have hdistinct := isWellFormedPackage_ok hformed
  rw [← htxs, map_map] at hdistinct
  refine ⟨htxs, hchecked, habsent, hdistinct, _, fun ws hws => ?_, RemovedFrom.refl _⟩
  split at hremovals
  · exact packageRBFChecks_ok hremovals ws hws
  · rename_i hnone
    rw [not_not.mp fun hne => hnone ⟨ws, hws, hne⟩]
    exact nil_subset _

/-- A package enters whole with its conflicts gone, or not at all. -/
theorem acceptMultipleTransactions_staged (crypto : Crypto) (policy : Policy) (args : ATMPArgs)
    (s : Chainstate) (pool : Pool) (txns : List Transaction) :
    ∃ added, (added = [] ∨ added.map (fun ws => ws.entry.tx) = txns) ∧
      Staged crypto s pool (acceptMultipleTransactions crypto policy args s pool txns).1 added := by
  have hfail : ∃ added : List Workspace, (added = [] ∨ added.map (fun ws => ws.entry.tx) = txns) ∧
      Staged crypto s pool pool added := ⟨[], .inl rfl, staged_nil (RemovedFrom.refl pool)⟩
  unfold acceptMultipleTransactions
  split
  · exact hfail
  · rename_i workspaces removals hcheck
    obtain ⟨htxs, hstaged⟩ := checkMultiple_ok hcheck
    split
    · exact hfail
    · refine ⟨workspaces, .inr htxs, ?_⟩
      unfold submitPackage
      dsimp only
      split
      · exact hstaged
      · exact hstaged.shrink (removedFrom_removeStaged _ _)

/-- The admissions that an acceptance of the package consists of. -/
def PackageAdmission (crypto : Crypto) (policy : Policy) (args : ATMPArgs) (s : Chainstate)
    (pool : Pool) (package : List Transaction) (added : List Workspace) : Prop :=
  added.length ≤ 1 ∨
    added.map (fun ws => ws.entry.tx) = evaluatedTogether crypto policy args s pool package

section PackageInvariant

variable {Inv : Pool → Prop}

section

variable (hsingle : ∀ pool pool' added, added.length ≤ 1 → Staged crypto s pool pool' added →
  Inv pool → Inv pool')
include hsingle

theorem evaluateAlone_invariant (alone : Bool) (st : Evaluation) (tx : Transaction)
    (h : Inv st.pool) : Inv (evaluateAlone crypto policy args s alone st tx).pool := by
  unfold evaluateAlone
  split
  · exact h
  · obtain ⟨added, hlen, hadmitted⟩ := acceptSingleTransaction_staged crypto policy
      args.singleInPackageAccept s st.pool tx
    have hafter := hsingle _ _ added hlen hadmitted h
    split
    · rename_i pool u heq
      rwa [heq] at hafter
    · rename_i pool e heq
      rw [heq] at hafter
      split <;> exact hafter

theorem evaluateEach_invariant (package : List Transaction) (h : Inv pool) :
    Inv (evaluateEach crypto policy args s pool package).pool := by
  unfold evaluateEach
  generalize hst : (⟨pool, [], [], false⟩ : Evaluation) = st
  replace h : Inv st.pool := hst ▸ h
  clear hst
  generalize decide (package.length = 1) = alone
  induction package generalizing st with
  | nil => exact h
  | cons tx package ih => exact ih _ (evaluateAlone_invariant hsingle alone st tx h)

end

theorem submitEvaluated_invariant {package : List Transaction}
    (hadmitted : ∀ pool' pool'' added, PackageAdmission crypto policy args s pool package added →
      Staged crypto s pool' pool'' added → Inv pool' → Inv pool'')
    (h : Inv (evaluateEach crypto policy args s pool package).pool) :
    Inv (submitEvaluated crypto policy args s
      (evaluateEach crypto policy args s pool package)).1 := by
  unfold submitEvaluated
  split
  · exact h
  · rename_i hquit
    split
    · exact h
    · unfold acceptSubPackage
      split
      · obtain ⟨added, hlen, hadded⟩ := acceptSingleTransaction_staged crypto policy
          args.singleInPackageAccept s (evaluateEach crypto policy args s pool package).pool _
        exact hadmitted _ _ added (.inl hlen) hadded h
      · obtain ⟨added, htxs, hadded⟩ := acceptMultipleTransactions_staged crypto policy args s
          (evaluateEach crypto policy args s pool package).pool
          (evaluateEach crypto policy args s pool package).txnsPackageEval
        refine hadmitted _ _ added (htxs.imp (fun hnil => by simp [hnil]) fun htxs => ?_) hadded h
        rw [htxs, evaluatedTogether, if_neg hquit]

/-- What every admission of a package preserves holds behind its acceptance. -/
theorem acceptPackage_invariant (Inv : Pool → Prop) {package : List Transaction}
    (hadmitted : ∀ pool' pool'' added, PackageAdmission crypto policy args s pool package added →
      Staged crypto s pool' pool'' added → Inv pool' → Inv pool'') (h : Inv pool) :
    Inv (acceptPackage crypto policy args s pool package).1 := by
  have hsingle : ∀ pool' pool'' added, added.length ≤ 1 → Staged crypto s pool' pool'' added →
      Inv pool' → Inv pool'' :=
    fun pool' pool'' added hlen => hadmitted pool' pool'' added (.inl hlen)
  have heach := submitEvaluated_invariant hadmitted (evaluateEach_invariant hsingle package h)
  have hlimit := hsingle _ (limitMempoolSize crypto policy (submitEvaluated crypto policy args s
    (evaluateEach crypto policy args s pool package)).1) [] (by simp)
    (staged_nil (removedFrom_limitMempoolSize _)) heach
  unfold acceptPackage
  split
  · exact h
  · split
    · exact h
    · dsimp only
      rw [apply_ite Prod.fst, ite_self]
      exact hlimit

end PackageInvariant

end Pricoin.MempoolAdmission
