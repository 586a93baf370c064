import Pricoin.Coins
import Pricoin.TxChecks

/-!
The memory pool: its entries, the map from outpoints to the transactions that spend
them, and the ways in which transactions leave. A transaction takes its descendants
with it, as the transaction graph names them. When a block is connected, what it
confirms goes, and so does everything that conflicts with it in an outpoint or in a
key image. The graph stays a parameter, of which only the roots are known to be
among the descendants.
-/
namespace Pricoin.Mempool

open KeyImageFile Transactions Coins TxChecks List

variable {pool pool' : Pool} {e : Entry}

structure Entry where
  tx : Transaction
  nFee : ℤ
  /-- The virtual size, with the signature operations taken into account. -/
  vsize : ℕ
  spendsCoinbase : Bool

structure Pool where
  mapTx : List Entry
  /-- The spender of an outpoint. The inputs of a ring transaction have an entry as well. -/
  mapNextTx : List (OutPoint × Txid)

def emptyPool : Pool := ⟨[], []⟩

def Pool.transactions (pool : Pool) : List Transaction := pool.mapTx.map (fun e => e.tx)

/-- The descendants of some transactions of the pool, as the graph knows them. -/
abbrev Descendants := Pool → List Txid → List Txid

section Pool

variable (crypto : Crypto)

def Entry.txid (e : Entry) : Txid := crypto.txid e.tx

def Pool.getEntry (pool : Pool) (txid : Txid) : Option Entry :=
  pool.mapTx.find? (fun e => e.txid crypto = txid)

def Pool.existsTxid (pool : Pool) (txid : Txid) : Bool :=
  pool.mapTx.any (fun e => e.txid crypto = txid)

def Pool.existsWtxid (pool : Pool) (wtxid : Uint256) : Bool :=
  pool.mapTx.any (fun e => crypto.wtxid e.tx = wtxid)

def Pool.getConflictTx (pool : Pool) (o : OutPoint) : Option Txid :=
  (pool.mapNextTx.find? (fun p => p.1 = o)).map Prod.snd

/-- The transactions of the pool that a transaction spends from. -/
def Pool.getParents (pool : Pool) (tx : Transaction) : List Txid :=
  (tx.prevouts.map (fun o => o.hash)).filter (pool.existsTxid crypto)

/-- Inserting never replaces the spender that an outpoint has already. -/
def insertSpender (txid : Txid) (mapNextTx : List (OutPoint × Txid)) (o : OutPoint) :
    List (OutPoint × Txid) :=
  if mapNextTx.any (fun p => p.1 = o) then mapNextTx else (o, txid) :: mapNextTx

def addNewTransaction (pool : Pool) (e : Entry) : Pool :=
  ⟨pool.mapTx ++ [e], e.tx.prevouts.foldl (insertSpender (e.txid crypto)) pool.mapNextTx⟩

def removeUnchecked (pool : Pool) (txid : Txid) : Pool :=
  match pool.getEntry crypto txid with
  | none => pool
  | some e => ⟨pool.mapTx.filter (fun e' => e'.txid crypto ≠ txid),
      pool.mapNextTx.filter (fun p => p.1 ∉ e.tx.prevouts)⟩

def removeStaged (pool : Pool) (txids : List Txid) : Pool :=
  txids.foldl (removeUnchecked crypto) pool

variable (descendants : Descendants)

/-- Remove transactions with their descendants, which include them. -/
def removeDescendants (pool : Pool) (roots : List Txid) : Pool :=
  removeStaged crypto pool (roots ++ descendants pool roots)

/-- `removeRecursive` on a transaction of the pool. -/
def removeRecursive (pool : Pool) (txid : Txid) : Pool :=
  removeDescendants crypto descendants pool [txid]

/-- `removeRecursive` on any transaction. One that is not in the pool takes the spenders of its
outputs along. -/
def removeRecursiveTx (pool : Pool) (tx : Transaction) : Pool :=
  if pool.existsTxid crypto (crypto.txid tx) then
    removeRecursive crypto descendants pool (crypto.txid tx)
  else
    removeDescendants crypto descendants pool
      ((pool.mapNextTx.filter (fun p => p.1.hash = crypto.txid tx)).map Prod.snd)

def removeConflict (tx : Transaction) (pool : Pool) (o : OutPoint) : Pool :=
  match pool.getConflictTx o with
  | none => pool
  | some txid =>
    if txid ≠ crypto.txid tx then removeRecursive crypto descendants pool txid else pool

def removeConflicts (pool : Pool) (tx : Transaction) : Pool :=
  tx.prevouts.foldl (removeConflict crypto descendants tx) pool

/-- Two transactions that spend by ring with a common key image. -/
def overlap (tx tx' : Transaction) : Prop := ∃ ki ∈ tx.keyImages, ki ∈ tx'.keyImages

instance (tx tx' : Transaction) : Decidable (overlap tx tx') :=
  inferInstanceAs (Decidable (∃ ki ∈ tx.keyImages, ki ∈ tx'.keyImages))

def removeIfPresent (pool : Pool) (txid : Txid) : Pool :=
  if pool.existsTxid crypto txid then removeRecursive crypto descendants pool txid else pool

/-- The targets are collected first, and each is looked up again before it is removed. -/
def removeKeyImageConflicts (pool : Pool) (tx : Transaction) : Pool :=
  ((pool.mapTx.filter (fun e => e.txid crypto ≠ crypto.txid tx ∧ overlap e.tx tx)).map
    (Entry.txid crypto)).foldl (removeIfPresent crypto descendants) pool

def removeConfirmed (pool : Pool) (tx : Transaction) : Pool :=
  removeKeyImageConflicts crypto descendants
    (removeConflicts crypto descendants (removeUnchecked crypto pool (crypto.txid tx)) tx) tx

def removeForBlock (pool : Pool) (vtx : List Transaction) : Pool :=
  vtx.foldl (removeConfirmed crypto descendants) pool

end Pool

section Removal

variable {crypto : Crypto} {descendants : Descendants}

/-- A pool that some removals have left of another. -/
def RemovedFrom (crypto : Crypto) (pool pool' : Pool) : Prop :=
  ∃ txids, pool' = removeStaged crypto pool txids

theorem RemovedFrom.refl (pool : Pool) : RemovedFrom crypto pool pool := ⟨[], rfl⟩

theorem RemovedFrom.trans {pool'' : Pool} (h : RemovedFrom crypto pool pool')
    (h' : RemovedFrom crypto pool' pool'') : RemovedFrom crypto pool pool'' := by
  obtain ⟨txids, rfl⟩ := h
  obtain ⟨txids', rfl⟩ := h'
  exact ⟨txids ++ txids', (foldl_append ..).symm⟩

theorem removedFrom_foldl {α : Type} {f : Pool → α → Pool}
    (hf : ∀ pool a, RemovedFrom crypto pool (f pool a)) (pool : Pool) (as : List α) :
    RemovedFrom crypto pool (as.foldl f pool) := by
  induction as generalizing pool with
  | nil => exact RemovedFrom.refl pool
  | cons a as ih => exact (hf pool a).trans (ih (f pool a))

theorem removeUnchecked_sublist (crypto : Crypto) (pool : Pool) (txid : Txid) :
    (removeUnchecked crypto pool txid).mapTx.Sublist pool.mapTx ∧
    (removeUnchecked crypto pool txid).mapNextTx.Sublist pool.mapNextTx := by
  unfold removeUnchecked
  split
  · exact ⟨List.Sublist.refl _, List.Sublist.refl _⟩
  · exact ⟨filter_sublist, filter_sublist⟩

theorem RemovedFrom.sublists (h : RemovedFrom crypto pool pool') :
    pool'.mapTx.Sublist pool.mapTx ∧ pool'.mapNextTx.Sublist pool.mapNextTx := by
  obtain ⟨txids, rfl⟩ := h
  induction txids generalizing pool with
  | nil => exact ⟨List.Sublist.refl _, List.Sublist.refl _⟩
  | cons txid txids ih =>
    obtain ⟨hmap, hnext⟩ := @ih (removeUnchecked crypto pool txid)
    obtain ⟨hmap', hnext'⟩ := removeUnchecked_sublist crypto pool txid
    exact ⟨hmap.trans hmap', hnext.trans hnext'⟩

theorem RemovedFrom.sublist (h : RemovedFrom crypto pool pool') : pool'.mapTx.Sublist pool.mapTx :=
  h.sublists.1

@[simp] theorem mem_removeUnchecked {txid : Txid} :
    e ∈ (removeUnchecked crypto pool txid).mapTx ↔ e ∈ pool.mapTx ∧ e.txid crypto ≠ txid := by
  unfold removeUnchecked
  split
  · rename_i hnone
    rw [Pool.getEntry, List.find?_eq_none] at hnone
    exact ⟨fun he => ⟨he, by simpa using hnone e he⟩, And.left⟩
  · simp [mem_filter]

theorem removedFrom_removeUnchecked (pool : Pool) (txid : Txid) :
    RemovedFrom crypto pool (removeUnchecked crypto pool txid) :=
  ⟨[txid], rfl⟩

theorem removedFrom_removeStaged (pool : Pool) (txids : List Txid) :
    RemovedFrom crypto pool (removeStaged crypto pool txids) :=
  ⟨txids, rfl⟩

@[simp] theorem mem_removeStaged {txids : List Txid} :
    e ∈ (removeStaged crypto pool txids).mapTx ↔ e ∈ pool.mapTx ∧ e.txid crypto ∉ txids := by
  induction txids generalizing pool with
  | nil => simp [removeStaged]
  | cons txid txids ih =>
    have hstep : removeStaged crypto pool (txid :: txids) =
        removeStaged crypto (removeUnchecked crypto pool txid) txids := rfl
    rw [hstep, ih, mem_removeUnchecked, mem_cons, not_or, and_assoc]

theorem removedFrom_removeRecursive (pool : Pool) (txid : Txid) :
    RemovedFrom crypto pool (removeRecursive crypto descendants pool txid) :=
  removedFrom_removeStaged pool _

theorem removedFrom_removeRecursiveTx (pool : Pool) (tx : Transaction) :
    RemovedFrom crypto pool (removeRecursiveTx crypto descendants pool tx) := by
  unfold removeRecursiveTx
  split
  · exact removedFrom_removeRecursive pool _
  · exact removedFrom_removeStaged pool _

theorem removedFrom_removeConflict (tx : Transaction) (pool : Pool) (o : OutPoint) :
    RemovedFrom crypto pool (removeConflict crypto descendants tx pool o) := by
  unfold removeConflict
  split
  · exact RemovedFrom.refl pool
  · split
    · exact removedFrom_removeRecursive pool _
    · exact RemovedFrom.refl pool

theorem removedFrom_removeConflicts (pool : Pool) (tx : Transaction) :
    RemovedFrom crypto pool (removeConflicts crypto descendants pool tx) :=
  removedFrom_foldl (removedFrom_removeConflict tx) pool _

theorem removedFrom_removeIfPresent (pool : Pool) (txid : Txid) :
    RemovedFrom crypto pool (removeIfPresent crypto descendants pool txid) := by
  unfold removeIfPresent
  split
  · exact removedFrom_removeRecursive pool txid
  · exact RemovedFrom.refl pool

theorem removeIfPresent_absent {txid : Txid}
    (he : e ∈ (removeIfPresent crypto descendants pool txid).mapTx) : e.txid crypto ≠ txid := by
  unfold removeIfPresent at he
  split at he
  · exact ne_of_not_mem_cons (mem_removeStaged.mp he).2
  · rename_i hnone
    simp only [Pool.existsTxid, any_eq_true, decide_eq_true_eq, not_exists, not_and] at hnone
    exact hnone e he

theorem removedFrom_removeKeyImageConflicts (pool : Pool) (tx : Transaction) :
    RemovedFrom crypto pool (removeKeyImageConflicts crypto descendants pool tx) :=
  removedFrom_foldl removedFrom_removeIfPresent pool _

theorem foldl_removeIfPresent_absent {txids : List Txid}
    (he : e ∈ (txids.foldl (removeIfPresent crypto descendants) pool).mapTx) :
    e.txid crypto ∉ txids := by
  induction txids generalizing pool with
  | nil => exact not_mem_nil
  | cons txid txids ih =>
    have hlater := (removedFrom_foldl removedFrom_removeIfPresent _ txids).sublist.subset he
    exact not_mem_cons_of_ne_of_not_mem (removeIfPresent_absent hlater) (ih he)

/-- No other transaction with a key image of a confirmed one stays. -/
theorem removeKeyImageConflicts_apart {tx : Transaction}
    (he : e ∈ (removeKeyImageConflicts crypto descendants pool tx).mapTx)
    (hne : e.txid crypto ≠ crypto.txid tx) : ¬ overlap e.tx tx := by
  intro hover
  refine foldl_removeIfPresent_absent he (mem_map_of_mem (mem_filter.mpr ⟨?_, ?_⟩))
  · exact (removedFrom_removeKeyImageConflicts pool tx).sublist.subset he
  · exact decide_eq_true ⟨hne, hover⟩

theorem removedFrom_removeConfirmed (pool : Pool) (tx : Transaction) :
    RemovedFrom crypto pool (removeConfirmed crypto descendants pool tx) :=
  (removedFrom_removeUnchecked pool _).trans ((removedFrom_removeConflicts _ tx).trans
    (removedFrom_removeKeyImageConflicts _ tx))

theorem removeConfirmed_apart {tx : Transaction}
    (he : e ∈ (removeConfirmed crypto descendants pool tx).mapTx) :
    e.txid crypto ≠ crypto.txid tx ∧ ¬ overlap e.tx tx := by
  have hkept : e ∈ (removeUnchecked crypto pool (crypto.txid tx)).mapTx :=
    ((removedFrom_removeConflicts _ tx).trans
      (removedFrom_removeKeyImageConflicts _ tx)).sublist.subset he
  have hne := (mem_removeUnchecked.mp hkept).2
  exact ⟨hne, removeKeyImageConflicts_apart he hne⟩

theorem removedFrom_removeForBlock (pool : Pool) (vtx : List Transaction) :
    RemovedFrom crypto pool (removeForBlock crypto descendants pool vtx) :=
  removedFrom_foldl removedFrom_removeConfirmed pool vtx

/-- Behind a connected block, no transaction of the pool is one of the block or shares a key image
with one. -/
theorem removeForBlock_apart {vtx : List Transaction}
    (he : e ∈ (removeForBlock crypto descendants pool vtx).mapTx) :
    ∀ tx ∈ vtx, e.txid crypto ≠ crypto.txid tx ∧ ¬ overlap e.tx tx := by
  induction vtx generalizing pool with
  | nil => simp
  | cons tx vtx ih =>
    have hlater := (removedFrom_removeForBlock (removeConfirmed crypto descendants pool tx)
      vtx).sublist.subset he
    exact forall_mem_cons.mpr ⟨removeConfirmed_apart hlater, ih he⟩

end Removal

section Linked

variable {crypto : Crypto}

end Linked

end Pricoin.Mempool
