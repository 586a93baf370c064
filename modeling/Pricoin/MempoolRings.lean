import Pricoin.CoinsKept
import Pricoin.NodeSteps

/-!
Ring members of the transactions in the memory pool. They are confidential coins of
the tip when a transaction enters the pool. Later they can go: a connected block may
spend one directly, and a disconnected block takes its outputs away. Neither makes
the transaction leave the pool, since ring members are not among its inputs.
-/
namespace Pricoin.MempoolRings

open Checks Runs KeyImageFile Transactions Coins TxChecks BlockConnection UndoCodec List
open ConnectDisconnect ActiveChain Mempool MempoolAccept MempoolAdmission NodeSteps CoinsKept

variable {view : CoinsView} {nSpendHeight : ℕ} {tx : Transaction} {n n' : Node}

/-- The outpoints that the rings of a transaction name. -/
def ringMembers (tx : Transaction) : List OutPoint :=
  tx.ringInputs.flatMap (fun ri => ri.ring.map PrevoutRef.outPoint)

def Confidential (coins : CoinsView) (o : OutPoint) : Prop :=
  ∃ c, coins o = some c ∧ c.fConfidential = true

/-- Every ring member of every transaction of the pool is a confidential coin of the tip. -/
def RingsPresent (n : Node) : Prop :=
  ∀ tx ∈ n.mempool.transactions, ∀ o ∈ ringMembers tx, Confidential n.chainstate.tip.coins o

section Condition

variable (crypto : Crypto)

/-- Until one of the blocks confirms the transaction, none takes the coin away. -/
def Leaves (tx : Transaction) (o : OutPoint) : List ActiveBlock → Prop
  | [] => True
  | b :: bs => crypto.txid tx ∈ b.2.vtx.map crypto.txid ∨
    o ∉ replacedOutpoints crypto b.2 ∧ Leaves tx o bs

/-- No ring member of a transaction in the pool is an output of a block to disconnect, or is spent
directly by a block to connect before the transaction is confirmed. -/
def Undisturbed (disconnects : ℕ) (connects : List ActiveBlock) (n : Node) : Prop :=
  ∀ tx ∈ n.mempool.transactions, ∀ o ∈ ringMembers tx,
    (∀ b ∈ n.chainstate.chain.take disconnects, o ∉ createdOutpoints crypto b.2) ∧
    Leaves crypto tx o connects

/-- The condition on what happens to the node. -/
def MembersUndisturbed (n : Node) : Event → Prop
  | .activate _ disconnects connects => Undisturbed crypto disconnects connects n
  | .invalidate _ _ => Undisturbed crypto 1 [] n
  | _ => True

end Condition

section Verification

variable {crypto : Crypto}

theorem ringMember_ne_missing {pseudo : Commitment} {ref : PrevoutRef}
    (h : Confidential view ref.outPoint) :
    ringMember crypto view nSpendHeight pseudo ref ≠
      .error (badTx "bad-pct-ring-member-missing") := by
  obtain ⟨c, hc, hconf⟩ := h
  intro hfail
  simp only [ringMember, hc, hconf, bind_error, rejectIf_error] at hfail
  rcases hfail with ⟨hfalse, -⟩ | ⟨-, -, ⟨-, hreason⟩ | ⟨-, -, hfail⟩⟩
  · contradiction
  · simp [badTx] at hreason
  · split at hfail
    · simp [badTx] at hfail
    · contradiction

/-- With all its members in place a ring input does not fail for want of one. -/
theorem verifyRingInput_ne_missing {committed : Finset Point} {msg : Uint256} {ri : CTRingInput}
    (h : ∀ ref ∈ ri.ring, Confidential view ref.outPoint) :
    verifyRingInput crypto view committed nSpendHeight msg ri ≠
      .error (badTx "bad-pct-ring-member-missing") := by
  intro hfail
  simp only [verifyRingInput, bind_error, rejectIf_error] at hfail
  rcases hfail with ⟨-, hreason⟩ | ⟨-, -, ⟨-, hreason⟩ | ⟨-, -, ⟨-, hreason⟩ | ⟨-, -, hmembers |
    ⟨-, -, ⟨-, hreason⟩ | ⟨-, -, -, hreason⟩⟩⟩⟩⟩
  · simp [badTx] at hreason
  · simp [badTx] at hreason
  · simp [badTx] at hreason
  · obtain ⟨ref, href, hmissing⟩ := mapM_error hmembers
    exact ringMember_ne_missing (h ref href) hmissing
  · simp [badTx] at hreason
  · simp [badTx] at hreason

theorem mem_ringMembers {o : OutPoint} :
    o ∈ ringMembers tx ↔ ∃ ri ∈ tx.ringInputs, ∃ ref ∈ ri.ring, ref.outPoint = o := by
  simp only [ringMembers, mem_flatMap, mem_map]

theorem verifyRingInputs_ne_missing {committed : Finset Point} (hring : tx.isV4Ring = true)
    (h : ∀ o ∈ ringMembers tx, Confidential view o) :
    verifyRingInputs crypto tx view committed nSpendHeight ≠
      .error (badTx "bad-pct-ring-member-missing") := by
  intro hfail
  obtain ⟨ri, hri, hmissing⟩ := checkAll_error hfail
  simp only [Transaction.isV4Ring, Bool.and_eq_true, decide_eq_true_eq] at hring
  refine verifyRingInput_ne_missing (fun ref href => h _ ?_) hmissing
  refine mem_ringMembers.mpr ⟨ri, ?_, ref, href, rfl⟩
  rwa [Transaction.ringInputs, if_pos hring.1]

end Verification

section Steps

variable {rules : Rules} {keys : PubKeys} {policy : Policy}

/-- An admission brings in transactions whose ring members are in place. -/
theorem members_of_admitted {crypto : Crypto} {s : Chainstate} {pool pool' : Pool}
    {added : List Workspace} (h : Admitted crypto s pool pool' added)
    (htx : tx ∈ pool'.transactions) :
    tx ∈ pool.transactions ∨ ∀ o ∈ ringMembers tx, Confidential s.tip.coins o := by
  obtain ⟨kept, hkept, hpool, -⟩ := h.kept
  obtain ⟨e, he, rfl⟩ := mem_map.mp htx
  rcases mem_append.mp (hpool.subset he) with he | he
  · exact .inl (mem_map_of_mem (hkept.subset he))
  · obtain ⟨ws, hws, rfl⟩ := mem_map.mp he
    refine .inr fun o ho => ?_
    obtain ⟨ri, hri, ref, href, rfl⟩ := mem_ringMembers.mp ho
    exact (h.checked ws hws).members ri hri ref href

theorem Confidential.of_eq {coins coins' : CoinsView} {o : OutPoint} (h : Confidential coins o)
    (heq : ∀ c, coins o = some c → coins' o = some c) : Confidential coins' o := by
  obtain ⟨c, hc, hconf⟩ := h
  exact ⟨c, heq c hc, hconf⟩

/-- Disconnecting blocks only shrinks the pool and keeps the coins that they did not create. -/
theorem disconnectTips_keeps {k : ℕ} {r r' : Reorganizing}
    (h : disconnectTips rules keys policy k r = .ok r') :
    r'.node.mempool.mapTx.Sublist r.node.mempool.mapTx ∧
    ∀ o c, r.node.chainstate.tip.coins o = some c →
      (∀ b ∈ r.node.chainstate.chain.take k, o ∉ createdOutpoints rules.crypto b.2) →
      r'.node.chainstate.tip.coins o = some c := by
  induction k generalizing r with
  | zero =>
    rw [disconnectTips, Except.ok.injEq] at h
    subst h
    exact ⟨List.Sublist.refl _, fun o c hc _ => hc⟩
  | succ k ih =>
    rw [disconnectTips, bind_ok] at h
    obtain ⟨t, ht, hrest⟩ := h
    obtain ⟨hdisconnect, hremoved⟩ := disconnectTipAndQueue_ok ht
    obtain ⟨hpool, hcoins⟩ := ih hrest
    obtain ⟨pindex, block, rest, d, hcons, -, -, hnext⟩ := disconnectTip_ok hdisconnect
    have hshort : t.node.chainstate.chain = rest := by rw [hnext]
    rw [hshort] at hcoins
    rw [hcons]
    refine ⟨hpool.trans hremoved.sublist, fun o c hc hkept => ?_⟩
    rw [take_succ_cons, forall_mem_cons] at hkept
    refine hcoins o c (disconnectTip_keeps hdisconnect hc ?_) hkept.2
    simpa [hcons] using hkept.1

/-- Connecting blocks keeps the members in place as long as their transactions are in the pool. -/
theorem ringsPresent_connectTips {bs : List ActiveBlock} {r r' : Reorganizing}
    (h : connectTips rules keys policy bs r = .ok r') (hr : RingsPresent r.node)
    (hleaves : ∀ tx ∈ r.node.mempool.transactions, ∀ o ∈ ringMembers tx,
      Leaves rules.crypto tx o bs) : RingsPresent r'.node := by
  induction bs generalizing r with
  | nil =>
    rw [connectTips, Except.ok.injEq] at h
    exact h ▸ hr
  | cons b bs ih =>
    rw [connectTips] at h
    split at h
    · rename_i t ht
      obtain ⟨hconnect, hpool⟩ := connectTipAndEvict_ok ht
      have hstay (tx : Transaction) (htx : tx ∈ t.node.mempool.transactions) (o : OutPoint)
          (ho : o ∈ ringMembers tx) : Confidential r.node.chainstate.tip.coins o ∧
          o ∉ replacedOutpoints rules.crypto b.2 ∧ Leaves rules.crypto tx o bs := by
        obtain ⟨e, he, rfl⟩ := mem_map.mp htx
        rw [hpool] at he
        have hold : e.tx ∈ r.node.mempool.transactions :=
          mem_map_of_mem ((removedFrom_removeForBlock _ _).sublist.subset he)
        refine ⟨hr e.tx hold o ho, (hleaves e.tx hold o ho).resolve_left fun hmem => ?_⟩
        obtain ⟨tx, htx, heq⟩ := mem_map.mp hmem
        exact (removeForBlock_apart he tx htx).1 heq.symm
      refine ih h (fun tx htx o ho => ?_) fun tx htx o ho => (hstay tx htx o ho).2.2
      obtain ⟨hconf, hkept, -⟩ := hstay tx htx o ho
      exact hconf.of_eq fun c hc => (connectTip_keeps hconnect (by simp [hc]) hkept).trans hc
    · rw [Except.ok.injEq] at h
      exact h ▸ hr
    · contradiction

/-- What enters the pool again at the end of a reorganization is checked at the new tip. -/
theorem ringsPresent_maybeUpdateMempoolForReorg {n : Node} {r : Reorganizing}
    {fAddToMempool : Bool} (h : maybeUpdateMempoolForReorg rules policy fAddToMempool r = .ok n)
    (hr : RingsPresent r.node) : RingsPresent n := by
  obtain ⟨hs, hmembers⟩ := maybeUpdateMempoolForReorg_invariant
    (fun pool => ∀ tx ∈ pool.transactions, ∀ o ∈ ringMembers tx,
      Confidential r.node.chainstate.tip.coins o) h
    (fun pool pool' added _ hadded hpool tx htx =>
      (members_of_admitted hadded.admitted htx).elim (hpool tx) id) hr
  intro tx htx o ho
  rw [hs]
  exact hmembers tx htx o ho

theorem ringsPresent_activateBestChainStep {disconnects : ℕ} {connects : List ActiveBlock}
    (hstep : activateBestChainStep rules keys policy disconnects connects n = .ok n')
    (hcond : Undisturbed rules.crypto disconnects connects n) (h : RingsPresent n) :
    RingsPresent n' := by
  obtain ⟨r, r', hr, hr', hend⟩ := activateBestChainStep_ok hstep
  obtain ⟨hsub, hdown⟩ := disconnectTips_keeps hr
  have hold {tx : Transaction} (htx : tx ∈ r.node.mempool.transactions) :
      tx ∈ n.mempool.transactions := (hsub.map _).subset htx
  have hup := ringsPresent_connectTips hr'
    (fun tx htx o ho => (h tx (hold htx) o ho).of_eq fun c hc =>
      hdown o c hc (hcond tx (hold htx) o ho).1)
    (fun tx htx o ho => (hcond tx (hold htx) o ho).2)
  rcases hend with rfl | hend
  · exact hup
  · exact ringsPresent_maybeUpdateMempoolForReorg hend hup

theorem ringsPresent_invalidateTip {fAddToMempool : Bool}
    (hstep : invalidateTip rules keys policy fAddToMempool n = .ok n')
    (hcond : Undisturbed rules.crypto 1 [] n) (h : RingsPresent n) : RingsPresent n' := by
  obtain ⟨r, hr, hend⟩ := invalidateTip_ok hstep
  have hone : disconnectTips rules keys policy 1 ⟨n, []⟩ = .ok r := by
    rw [disconnectTips, bind_ok]
    exact ⟨r, hr, rfl⟩
  obtain ⟨hsub, hdown⟩ := disconnectTips_keeps hone
  refine ringsPresent_maybeUpdateMempoolForReorg hend fun tx htx o ho => ?_
  have hold := (hsub.map _).subset htx
  exact (h tx hold o ho).of_eq fun c hc => hdown o c hc (hcond tx hold o ho).1

/-- Transactions that enter at the same tip leave the ring members in place. -/
theorem ringsPresent_nodeStep {e : Event} (hcond : MembersUndisturbed rules.crypto n e)
    (hstep : nodeStep rules keys n e = .ok n') (h : RingsPresent n) : RingsPresent n' := by
  have hadmitted : ∀ pool pool' added, Staged rules.crypto n.chainstate pool pool' added →
      RingsPresent ⟨n.chainstate, pool⟩ → RingsPresent ⟨n.chainstate, pool'⟩ :=
    fun pool pool' added hadded hpool tx htx =>
      (members_of_admitted hadded.admitted htx).elim (hpool tx) id
  cases e with
  | transaction policy tx bypassLimits testAccept =>
    rw [nodeStep, Except.ok.injEq] at hstep
    subst hstep
    obtain ⟨added, -, hadded⟩ := acceptSingleTransaction_staged rules.crypto policy
      (.singleAccept bypassLimits testAccept) n.chainstate n.mempool tx
    exact hadmitted _ _ added hadded h
  | package policy package testAccept clientMaxfeerate =>
    rw [nodeStep, Except.ok.injEq] at hstep
    subst hstep
    unfold processNewPackage
    split
    · obtain ⟨added, -, hadded⟩ := acceptMultipleTransactions_staged rules.crypto policy
        .packageTestAccept n.chainstate n.mempool package
      exact hadmitted _ _ added hadded h
    · exact acceptPackage_invariant (fun pool => RingsPresent ⟨n.chainstate, pool⟩)
        (fun pool pool' added _ hadded hpool => hadmitted pool pool' added hadded hpool) h
  | activate policy disconnects connects =>
    exact ringsPresent_activateBestChainStep hstep hcond h
  | invalidate policy fAddToMempool =>
    exact ringsPresent_invalidateTip hstep hcond h

/-- In every run from an empty pool whose blocks leave the ring members of the transactions in the
pool alone, the members are confidential coins of the tip, and verification does not miss them. -/
theorem ringsPresent_of_undisturbed {n n' : Node} {events : List Event}
    (hempty : n.mempool = emptyPool)
    (hcond : AlwaysOk (nodeStep rules keys) (MembersUndisturbed rules.crypto) n events)
    (h : run (nodeStep rules keys) n events = .ok n') :
    RingsPresent n' ∧
    ∀ tx ∈ n'.mempool.transactions, tx.isV4Ring = true → ∀ nSpendHeight,
      verifyRingInputs rules.crypto tx n'.chainstate.tip.coins n'.chainstate.store.images.members
        nSpendHeight ≠ .error (badTx "bad-pct-ring-member-missing") := by
  have hpresent : RingsPresent n' := by
    refine hcond.invariant RingsPresent
      (fun t e t' hc hstep ht => ringsPresent_nodeStep hc hstep ht) h ?_
    simp [RingsPresent, hempty, emptyPool, Pool.transactions]
  exact ⟨hpresent, fun tx htx hring nSpendHeight =>
    verifyRingInputs_ne_missing hring (hpresent tx htx)⟩

end Steps

section Sample

/-- The transaction in the pool has a decoy that the next block spends directly. -/
theorem not_ringsPresent_decoy :
    ∃ n, run (nodeStep sampleRules samplePubKeys) sampleNode [sampleGrowth, sampleArrival 1,
        sampleNext [sampleDirect (sampleOut 0) 200]] = .ok n ∧ ¬ RingsPresent n := by
  obtain ⟨n, hn⟩ := exists_grown
  obtain ⟨n', hrun, hspent⟩ := hn.spent
  simp only [decoySpent, Bool.and_eq_true, decide_eq_true_eq, Bool.not_eq_true'] at hspent
  refine ⟨n', ?_, fun h => ?_⟩
  · rw [run, bind_ok]
    exact ⟨n, hn.grown, hrun⟩
  · obtain ⟨c, hc, -⟩ := h (sampleDecoyed 1) (by rw [hspent.1]; exact mem_cons_self)
      (sampleOut 0).outPoint (by decide +kernel)
    simp [CoinsView.haveCoin, hc] at hspent

theorem ringsPresent_of_undisturbed_stays :
    ∃ n, run (nodeStep sampleRules samplePubKeys) sampleNode
        [sampleGrowth, sampleArrival 1, sampleNext []] = .ok n ∧
      n.mempool.transactions = [sampleDecoyed 1] ∧ RingsPresent n := by
  obtain ⟨n, hn⟩ := exists_grown
  obtain ⟨n', hrest, htxs⟩ := hn.stays
  have hrun : run (nodeStep sampleRules samplePubKeys) sampleNode
      [sampleGrowth, sampleArrival 1, sampleNext []] = .ok n' := by
    rw [run, bind_ok]
    exact ⟨n, hn.grown, hrest⟩
  refine ⟨n', hrun, htxs, (ringsPresent_of_undisturbed rfl ?_ hrun).1⟩
  refine ⟨fun tx htx => by simp [sampleNode, emptyPool, Pool.transactions] at htx,
    fun t ht => ⟨trivial, fun u hu => ⟨fun tx htx o ho => ?_, fun _ _ => trivial⟩⟩⟩
  obtain rfl := Except.ok.inj (hn.grown.symm.trans ht)
  obtain ⟨u', hu', harrived⟩ := hn.arrived
  obtain rfl := Except.ok.inj (hu'.symm.trans hu)
  rw [harrived, mem_singleton] at htx
  subst htx
  have hfar : ∀ o ∈ ringMembers (sampleDecoyed 1),
      o ∉ replacedOutpoints sampleCrypto (sampleActive 102 []).2 := by decide +kernel
  exact ⟨by simp, .inr ⟨hfar o ho, trivial⟩⟩

end Sample

end Pricoin.MempoolRings
