import Pricoin.Reorganizations
import Pricoin.StoreRoundTrips

/-!
The check of the block database. It walks down from the tip and disconnects the
blocks from a scratch coins view, and at the highest level connects them again.
Both also reach the global key-image store. Which blocks are taken off and put back
follows from the level, the depth, the data on disk and the interruptions, and so
does what is left of the store.
-/
namespace Pricoin.VerifyDB

open Checks Runs TaggedSets KeyImageFile KeyImageStore StoreRoundTrips Transactions Coins
open List Option
open BlockConnection UndoCodec BlockDisconnection ConnectDisconnect ActiveChain Reorganizations

variable {s : Chainstate} {v : Verifying} {t : Chainstate} {low : ℕ}
  {checked below : List ActiveBlock}

inductive VerifyDBResult where
  | success
  | corruptedBlockDB
  | interrupted
  | skippedL3Checks
  | skippedMissingBlocks
  /-- A failed assertion. -/
  | crash
  deriving DecidableEq, Repr

/-- Each entry stands on the ones after it. -/
def Linked : List BlockIndex → Prop
  | [] => True
  | pindex :: rest => pindex.ancestors = rest.map BlockIndex.hash ∧ Linked rest

/-- The entries of the active chain, the tip first and the genesis block last. -/
structure IndexChain (rules : Rules) where
  blocks : List BlockIndex
  linked : Linked blocks
  rooted : ∀ pindex ∈ blocks.getLast?, pindex.hash = rules.hashGenesisBlock

/-- What the check finds on disk and around it. -/
structure Surroundings where
  readBlock : BlockIndex → Option Block
  undoFiles : BlockHash → Option (List UInt8)
  isPruneMode : Bool
  isSnapshot : Bool
  haveData : BlockIndex → Bool
  /-- Whether the caches are within their limit when a block is reached. -/
  cacheFits : BlockIndex → Bool
  /-- Whether the interrupt is set when it is polled for the nth time. -/
  interrupt : ℕ → Bool

/-- The state of a check: the scratch view, the global store and the blocks passed, the lowest
first. -/
structure Verifying where
  coins : CoinsTip
  store : Store
  visited : List BlockIndex
  pindexFailure : Bool
  skippedNoBlockData : Bool
  skippedL3Checks : Bool
  polls : ℕ

/-- A check that ends early leaves its result and its state. -/
abbrev Checking := Except (VerifyDBResult × Verifying) Verifying

def startVerifying (coinsview : CoinsTip) (store : Store) : Verifying :=
  ⟨coinsview, store, [], false, false, false, 0⟩

section Model

variable (rules : Rules) (keys : PubKeys) (env : Surroundings) (nCheckLevel : ℤ)

def pollInterrupt (s : Verifying) : Checking :=
  if env.interrupt s.polls then .error (.interrupted, s) else .ok { s with polls := s.polls + 1 }

/-- Undo data is checked where there is any. -/
def undoReadable (pindex : BlockIndex) : Bool :=
  match env.undoFiles pindex.hash with
  | none => true
  | some file => (readBlockUndo rules.crypto keys pindex.prevHash file).isSome

/-- Check level 3. -/
def checkDisconnect (pindex : BlockIndex) (block : Block) (s : Verifying) : Checking :=
  if nCheckLevel < 3 then .ok s
  else if env.cacheFits pindex = false then .ok { s with skippedL3Checks := true }
  else if s.coins.bestBlock ≠ pindex.hash then .error (.crash, s)
  else
    match disconnectBlock rules.crypto keys block pindex (env.undoFiles pindex.hash) s.coins
      s.store with
    | .error .failed => .error (.corruptedBlockDB, s)
    | .error .crash => .error (.crash, s)
    | .ok d => .ok { s with
        coins := d.tip
        store := d.store
        pindexFailure := s.pindexFailure || !d.fClean }

/-- One turn of the loop down the chain. -/
def verifyBlock (pindex : BlockIndex) (s : Verifying) : Checking :=
  match env.readBlock pindex with
  | none => .error (.corruptedBlockDB, s)
  | some block => do
    rejectIf (1 ≤ nCheckLevel ∧
      succeeds (fun _ => true) (checkBlock rules true true block pindex.nHeight) = false)
      (.corruptedBlockDB, s)
    rejectIf (2 ≤ nCheckLevel ∧ undoReadable rules keys env pindex = false) (.corruptedBlockDB, s)
    let s ← checkDisconnect rules keys env nCheckLevel pindex block s
    let s ← pollInterrupt env s
    .ok { s with visited := pindex :: s.visited }

/-- The loop down the chain ends before the genesis block, at the check depth or where the block
data is missing. -/
def verifyBlocks (lowest : ℤ) : List BlockIndex → Verifying → Checking
  | pindex :: prev :: rest, s =>
    if pindex.nHeight ≤ lowest then .ok s
    else if (env.isPruneMode || env.isSnapshot) && !env.haveData pindex then
      .ok { s with skippedNoBlockData := true }
    else do
      let s ← verifyBlock rules keys env nCheckLevel pindex s
      verifyBlocks lowest (prev :: rest) s
  | _, s => .ok s

/-- Check level 4: connect the blocks passed again, up to the tip. -/
def reconnectBlocks : List BlockIndex → Verifying → Checking
  | [], s => .ok s
  | pindex :: rest, s =>
    match env.readBlock pindex with
    | none => .error (.corruptedBlockDB, s)
    | some block =>
      match connectBlock rules false block pindex s.coins s.store with
      | .error (.invalid _) => .error (.corruptedBlockDB, s)
      | .error .crash => .error (.crash, s)
      | .ok c => do
        let s ← pollInterrupt env { s with coins := c.tip, store := c.store }
        reconnectBlocks rest s

/-- The two loops of the check, at a level from 0 to 4. -/
def verifyChain (lowest : ℤ) (blocks : List BlockIndex) (s : Verifying) : Checking := do
  let s ← verifyBlocks rules keys env nCheckLevel lowest blocks s
  rejectIf (s.pindexFailure = true) (.corruptedBlockDB, s)
  (if 4 ≤ nCheckLevel ∧ s.skippedL3Checks = false then reconnectBlocks rules env s.visited s
  else .ok s)

/-- The result of a check that has not been cut short. -/
def finishVerifying : Checking → VerifyDBResult × Verifying
  | .error stopped => stopped
  | .ok s =>
    if s.skippedL3Checks then (.skippedL3Checks, s)
    else if s.skippedNoBlockData then (.skippedMissingBlocks, s)
    else (.success, s)

def verifyDB (chain : IndexChain rules) (coinsview : CoinsTip) (store : Store)
    (nCheckDepth : ℤ) : VerifyDBResult × Verifying :=
  let s := startVerifying coinsview store
  if chain.blocks.length ≤ 1 then (.success, s)
  else
    let height : ℤ := chain.blocks.length - 1
    let depth := if nCheckDepth ≤ 0 ∨ height < nCheckDepth then height else nCheckDepth
    finishVerifying
      (verifyChain rules keys env (max 0 (min 4 nCheckLevel)) (height - depth) chain.blocks s)

end Model

/-- The blocks of a list with key images, as the store commits them. -/
def imageEntries (blocks : List ActiveBlock) : List (BlockHash × List Point) :=
  (blocks.map (fun e => (e.1.hash, e.2.keyImages))).filter (fun e => e.2 ≠ [])

section Entries

theorem imageEntries_append (blocks blocks' : List ActiveBlock) :
    imageEntries (blocks ++ blocks') = imageEntries blocks ++ imageEntries blocks' := by
  simp [imageEntries]

theorem commitAll_imageEntries_cons (e : ActiveBlock) (blocks : List ActiveBlock) (s : Store) :
    commitAll (imageEntries (e :: blocks)) s =
      commitAll (imageEntries blocks) (commitBlockKIs e.1.hash e.2.keyImages s) := by
  rw [imageEntries, commitAll_filter, imageEntries, commitAll_filter]
  rfl

theorem uncommitAll_reverse_cons (e : ActiveBlock) (blocks : List ActiveBlock) (s : Store) :
    uncommitAll (chainHashes (e :: blocks).reverse) s =
      uncommitAll (chainHashes blocks.reverse) (uncommitBlockKIs e.1.hash s) := by
  simp [uncommitAll, chainHashes]

theorem flatMap_imageEntries (blocks : List ActiveBlock) :
    (imageEntries blocks).flatMap Prod.snd = chainKeyImages blocks := by
  induction blocks with
  | nil => rfl
  | cons e rest ih =>
    rw [chainKeyImages, flatMap_cons, ← chainKeyImages, ← ih, ← singleton_append,
      imageEntries_append, flatMap_append]
    by_cases hnone : e.2.keyImages = []
    · simp [imageEntries, hnone]
    · simp [imageEntries, hnone]

theorem imageEntries_eq_nil {blocks : List ActiveBlock} (h : ∀ e ∈ blocks, e.2.keyImages = []) :
    imageEntries blocks = [] := by
  simp only [imageEntries, List.filter_eq_nil_iff, List.forall_mem_map, ne_eq, decide_not,
    Bool.not_eq_true', decide_eq_false_iff_not, not_not]
  exact h

end Entries

section Inputs

variable (rules : Rules) (keys : PubKeys) (env : Surroundings)

/-- How many blocks the check goes down on a chain of some length. -/
def checkedDepth (length : ℕ) (nCheckDepth : ℤ) : ℕ :=
  if nCheckDepth ≤ 0 ∨ (length : ℤ) - 1 < nCheckDepth then length - 1 else nCheckDepth.toNat

/-- The last blocks of a chain, the tip first, down to the depth or to missing block data. -/
def checkedBlocks (chain : List ActiveBlock) (depth : ℕ) : List ActiveBlock :=
  (chain.take depth).takeWhile fun e =>
    !((env.isPruneMode || env.isSnapshot) && !env.haveData e.1)

/-- The block and its undo record are on disk, and the caches are within their limit. -/
def takesOff (e : ActiveBlock) : Bool :=
  (env.readBlock e.1).isSome &&
    ((env.undoFiles e.1.hash).bind (readBlockUndo rules.crypto keys e.1.prevHash)).isSome &&
    env.cacheFits e.1

/-- The blocks taken off, from the nth poll on: up to an interruption or the first block that
cannot be. -/
def takenOff : ℕ → List ActiveBlock → List ActiveBlock
  | _, [] => []
  | n, e :: rest =>
    if takesOff rules keys env e then
      e :: if env.interrupt n then [] else takenOff (n + 1) rest
    else []

/-- The blocks put back, from the nth poll on: up to an interruption. -/
def putBack : ℕ → List ActiveBlock → List ActiveBlock
  | _, [] => []
  | n, e :: rest => e :: if env.interrupt n then [] else putBack (n + 1) rest

/-- All of the blocks are taken off, without an interruption from the nth poll on. -/
def Completed (n : ℕ) (checked : List ActiveBlock) : Prop :=
  (∀ e ∈ checked, takesOff rules keys env e = true) ∧
    ∀ k < checked.length, env.interrupt (n + k) = false

instance (n : ℕ) (checked : List ActiveBlock) : Decidable (Completed rules keys env n checked) :=
  inferInstanceAs (Decidable ((∀ e ∈ checked, takesOff rules keys env e = true) ∧
    ∀ k < checked.length, env.interrupt (n + k) = false))

/-- The blocks that level 4 puts back. -/
def putBackAt (nCheckLevel : ℤ) (checked : List ActiveBlock) : List ActiveBlock :=
  if 4 ≤ nCheckLevel ∧ Completed rules keys env 0 checked then
    putBack env checked.length checked.reverse
  else []

/-- What the disk gives for the active blocks was written there, or is lost. -/
structure Genuine (s : Chainstate) : Prop where
  blocks : ∀ e ∈ s.chain, ∀ block, env.readBlock e.1 = some block → block = e.2
  undo : ∀ e ∈ s.chain, ∀ file, env.undoFiles e.1.hash = some file →
    (readBlockUndo rules.crypto keys e.1.prevHash file).isSome → s.undoFiles e.1.hash = some file

end Inputs

variable {rules : Rules} {keys : PubKeys} {env : Surroundings} {nCheckLevel : ℤ}
  {blocks : List ActiveBlock} (hgenesis : GenesisPlain rules) (hregular : Regular blocks)
  (hs : Rebuilt rules keys blocks s) (hdisk : Genuine rules keys env s)

section Down

variable {e : ActiveBlock} {rest : List ActiveBlock} {n : ℕ}

/-- However a check ends, the store is this one. -/
abbrev EndsWith (store : Store) (done : Verifying → Prop) (x : Checking) : Prop :=
  Ends (fun stopped => stopped.2.store = store) (fun v => v.store = store ∧ done v) x

theorem pollInterrupt_keeps {done : Verifying → Prop}
    (hdone : done { v with polls := v.polls + 1 }) :
    EndsWith v.store done (pollInterrupt env v) := by
  unfold pollInterrupt
  split
  · exact rfl
  · exact ⟨rfl, hdone⟩

/-- Below level 3 nothing is disconnected. -/
theorem verifyBlock_low (hlevel : nCheckLevel < 3) (pindex : BlockIndex) (v : Verifying) :
    EndsWith v.store (fun _ => True) (verifyBlock rules keys env nCheckLevel pindex v) := by
  unfold verifyBlock
  split
  · exact rfl
  · refine Ends.bind (ends_rejectIf rfl) fun _ _ => ?_
    refine Ends.bind (ends_rejectIf rfl) fun _ _ => ?_
    rw [checkDisconnect, if_pos hlevel]
    have hpoll : EndsWith v.store (fun _ => True) (pollInterrupt env v) :=
      pollInterrupt_keeps trivial
    exact hpoll.bind fun v' hv' => hv'

theorem verifyBlocks_low (hlevel : nCheckLevel < 3) (lowest : ℤ) (chain : List BlockIndex)
    (v : Verifying) :
    EndsWith v.store (fun _ => True) (verifyBlocks rules keys env nCheckLevel lowest chain v) := by
  induction chain generalizing v with
  | nil => exact ⟨rfl, trivial⟩
  | cons pindex chain ih =>
    cases chain with
    | nil => exact ⟨rfl, trivial⟩
    | cons prev rest =>
      unfold verifyBlocks
      split
      · exact ⟨rfl, trivial⟩
      · split
        · exact ⟨rfl, trivial⟩
        · exact (verifyBlock_low hlevel pindex v).bind fun v' hv' => hv'.1 ▸ ih v'

/-- Without a block and an undo record that can be read nothing is disconnected. -/
theorem disconnectBlock_unreadable {block : Block}
    (hread : (env.readBlock e.1).isSome = true) (hfits : env.cacheFits e.1 = true)
    (hundo : undoReadable rules keys env e.1 = true) (h : takesOff rules keys env e = false)
    (tip : CoinsTip) (store : Store) :
    disconnectBlock rules.crypto keys block e.1 (env.undoFiles e.1.hash) tip store =
      .error .failed := by
  simp only [takesOff, hread, hfits, Bool.true_and, Bool.and_true] at h
  unfold undoReadable at hundo
  cases hfile : env.undoFiles e.1.hash with
  | none => rfl
  | some file => simp_all

/-- A block that cannot be taken off ends the check, or is skipped when it does not fit. -/
theorem verifyBlock_keeps (hlevel : 3 ≤ nCheckLevel)
    (h : takesOff rules keys env e = false ∨ v.coins.bestBlock ≠ e.1.hash) :
    EndsWith v.store (fun v' => v'.skippedL3Checks = true ∧ v'.coins = v.coins)
      (verifyBlock rules keys env nCheckLevel e.1 v) := by
  unfold verifyBlock
  split
  · exact rfl
  · rename_i block hread
    refine Ends.bind (ends_rejectIf rfl) fun _ _ => ?_
    refine Ends.bind (ends_rejectIf_not rfl) fun _ hundo => ?_
    have hundo : undoReadable rules keys env e.1 = true := by
      simpa [show 2 ≤ nCheckLevel by omega] using hundo
    have hkeeps : EndsWith v.store (fun v' => v'.skippedL3Checks = true ∧ v'.coins = v.coins)
        (checkDisconnect rules keys env nCheckLevel e.1 block v) := by
      rw [checkDisconnect, if_neg (not_lt.mpr hlevel)]
      split
      · exact ⟨rfl, rfl, rfl⟩
      · rename_i hfits
        split
        · exact rfl
        · rename_i hbest
          have htakes := h.resolve_right hbest
          rw [disconnectBlock_unreadable (hread ▸ rfl) (Bool.not_eq_false _ ▸ hfits) hundo htakes]
          exact rfl
    refine hkeeps.bind fun v' hv' => ?_
    have hpoll : EndsWith v'.store (fun w => w.skippedL3Checks = true ∧ w.coins = v.coins)
        (pollInterrupt env v') := pollInterrupt_keeps hv'.2
    exact hv'.1 ▸ hpoll.bind fun w hw => hw

/-- Once a block was skipped, no other one is taken off. -/
theorem verifyBlocks_skipped (hlevel : 3 ≤ nCheckLevel) (lowest : ℤ) {chain : List ActiveBlock}
    (hskip : v.skippedL3Checks = true) (hbest : v.coins.bestBlock ∉ chainHashes chain) :
    EndsWith v.store (fun v' => v'.skippedL3Checks = true)
      (verifyBlocks rules keys env nCheckLevel lowest (chain.map Prod.fst) v) := by
  induction chain generalizing v with
  | nil => exact ⟨rfl, hskip⟩
  | cons e rest ih =>
    rw [chainHashes, map_cons, mem_cons, not_or, ← chainHashes] at hbest
    cases rest with
    | nil => exact ⟨rfl, hskip⟩
    | cons prev rest =>
      rw [map_cons, map_cons]
      unfold verifyBlocks
      split
      · exact ⟨rfl, hskip⟩
      · split
        · exact ⟨rfl, hskip⟩
        · refine (verifyBlock_keeps hlevel (.inr hbest.1)).bind fun v' hv' => ?_
          obtain ⟨hstore, hskip', hcoins⟩ := hv'
          exact hstore ▸ ih hskip' (hcoins ▸ hbest.2)

theorem Genuine.read (hdisk : Genuine rules keys env s) (he : e ∈ s.chain)
    (h : takesOff rules keys env e = true) :
    env.readBlock e.1 = some e.2 ∧ env.cacheFits e.1 = true ∧
      undoReadable rules keys env e.1 = true ∧
      env.undoFiles e.1.hash = s.undoFiles e.1.hash := by
  simp only [takesOff, Bool.and_eq_true, isSome_iff_exists, bind_eq_some_iff] at h
  obtain ⟨⟨⟨block, hblock⟩, vtxundo, file, hfile, hvtxundo⟩, hfits⟩ := h
  have hsome : (readBlockUndo rules.crypto keys e.1.prevHash file).isSome := hvtxundo ▸ rfl
  refine ⟨hdisk.blocks e he block hblock ▸ hblock, hfits, ?_, ?_⟩
  · rw [undoReadable, hfile]
    exact hsome
  · rw [hfile, hdisk.undo e he file hfile hsome]

include hgenesis hregular hs hdisk in
/-- A block that can be taken off leaves the scratch view and the store. -/
theorem verifyBlock_takesOff (hlevel : 3 ≤ nCheckLevel)
    (hsuffix : e :: rest <:+ s.chain) (hrest : rest ≠ []) {b : Chainstate}
    (hb : straight rules keys rest = .ok b) (ht : connectTip rules keys e.1 e.2 b = .ok t)
    (hcoins : v.coins = t.tip) (h : takesOff rules keys env e = true) :
    verifyBlock rules keys env nCheckLevel e.1 v =
      let v' := { v with coins := b.tip, store := uncommitBlockKIs e.1.hash v.store }
      if env.interrupt v.polls then .error (.interrupted, v')
      else .ok { v' with polls := v.polls + 1, visited := e.1 :: v.visited } := by
  obtain ⟨hread, hfits, hundo, hfile⟩ := hdisk.read (hsuffix.subset mem_cons_self) h
  have hne := (grown_straight hgenesis hb).ne_genesis hrest ht
  have hback := hs.disconnectBlock hgenesis hregular hsuffix hne hb ht v.store
  obtain ⟨hcheck, hbest⟩ := connectTip_checked ht
  have hchecked : succeeds (fun _ => true) (checkBlock rules true true e.2 e.1.nHeight) = true := by
    rw [hcheck]
    rfl
  simp only [verifyBlock, hread, hchecked, hundo, checkDisconnect, if_neg (not_lt.mpr hlevel),
    hfits, hcoins, hbest, hfile, hback, rejectIf, Bool.true_eq_false, and_false, if_false, ne_eq,
    not_true_eq_false, Bool.not_true, Bool.or_false]
  change (pollInterrupt env _ >>= _) = _
  unfold pollInterrupt
  cases env.interrupt v.polls <;> rfl

theorem checkedBlocks_cons_of_le (h : rest.length ≤ low) :
    checkedBlocks env (e :: rest) ((e :: rest).length - 1 - low) = [] := by
  have hzero : (e :: rest).length - 1 - low = 0 := by
    rw [length_cons]
    omega
  rw [hzero, checkedBlocks, take_zero, takeWhile_nil]

theorem checkedBlocks_cons (h : low < rest.length) :
    checkedBlocks env (e :: rest) ((e :: rest).length - 1 - low) =
      if (env.isPruneMode || env.isSnapshot) && !env.haveData e.1 then []
      else e :: checkedBlocks env rest (rest.length - 1 - low) := by
  have hsucc : (e :: rest).length - 1 - low = (rest.length - 1 - low) + 1 := by
    rw [length_cons]
    omega
  rw [hsucc, checkedBlocks, take_succ_cons, takeWhile_cons, checkedBlocks]
  cases (env.isPruneMode || env.isSnapshot) && !env.haveData e.1 <;> rfl

theorem completed_cons :
    Completed rules keys env n (e :: checked) ↔ takesOff rules keys env e = true ∧
      env.interrupt n = false ∧ Completed rules keys env (n + 1) checked := by
  simp only [Completed, forall_mem_cons, length_cons]
  constructor
  · rintro ⟨⟨he, hall⟩, hpolls⟩
    refine ⟨he, hpolls 0 (Nat.succ_pos _), hall, fun k hk => ?_⟩
    rw [Nat.add_assoc, Nat.add_comm 1]
    exact hpolls (k + 1) (Nat.succ_lt_succ hk)
  · rintro ⟨he, hfirst, hall, hpolls⟩
    refine ⟨⟨he, hall⟩, fun k hk => ?_⟩
    cases k with
    | zero => exact hfirst
    | succ k =>
      rw [Nat.add_comm k, ← Nat.add_assoc]
      exact hpolls k (Nat.lt_of_succ_lt_succ hk)

/-- The state at the end of the way down over some blocks to those below. -/
structure Arrived (rules : Rules) (keys : PubKeys) (v : Verifying)
    (checked below : List ActiveBlock) (v' : Verifying) : Prop where
  skipped : v'.skippedL3Checks = false
  failure : v'.pindexFailure = false
  polls : v'.polls = v.polls + checked.length
  visited : v'.visited = checked.reverse.map Prod.fst ++ v.visited
  coins : ∃ b, straight rules keys below = .ok b ∧ v'.coins = b.tip

variable (rules keys env) in
/-- The way down takes the blocks off that can be, and arrives when these are all of them. -/
def GoesDown (v : Verifying) (checked below : List ActiveBlock) (x : Checking) : Prop :=
  let store := uncommitAll (chainHashes (takenOff rules keys env v.polls checked).reverse) v.store
  Ends (fun stopped => stopped.2.store = store ∧ ¬ Completed rules keys env v.polls checked)
    (fun v' => v'.store = store ∧ if Completed rules keys env v.polls checked then
      Arrived rules keys v checked below v' else v'.skippedL3Checks = true) x

theorem goesDown_nil (ht : straight rules keys below = .ok t) (hcoins : v.coins = t.tip)
    (hskip : v.skippedL3Checks = false) (hfailure : v.pindexFailure = false) (missing : Bool) :
    GoesDown rules keys env v [] below (.ok { v with skippedNoBlockData := missing }) := by
  refine ⟨rfl, ?_⟩
  rw [if_pos ⟨by simp, by simp⟩]
  exact ⟨hskip, hfailure, rfl, rfl, t, ht, hcoins⟩

theorem goesDown_blocked {x : Checking} (h : takesOff rules keys env e = false)
    (hx : EndsWith v.store (fun v' => v'.skippedL3Checks = true) x) :
    GoesDown rules keys env v (e :: checked) below x := by
  have hnot : ¬ Completed rules keys env v.polls (e :: checked) := by simp [completed_cons, h]
  simp only [GoesDown, takenOff, h, Bool.false_eq_true, if_false, if_neg hnot]
  exact hx.imp (fun _ hstopped => ⟨hstopped, hnot⟩) (fun _ hdone => hdone)

/-- A block that is taken off, and the way down from there. -/
theorem goesDown_cons {checked below : List ActiveBlock} {f : Verifying → Checking}
    {tip : CoinsTip} (h : takesOff rules keys env e = true)
    (hf : let v' := { v with
        coins := tip, store := uncommitBlockKIs e.1.hash v.store, polls := v.polls + 1,
        visited := e.1 :: v.visited }
      GoesDown rules keys env v' checked below (f v')) :
    GoesDown rules keys env v (e :: checked) below
      ((let v' := { v with coins := tip, store := uncommitBlockKIs e.1.hash v.store }
        if env.interrupt v.polls then .error (.interrupted, v')
        else .ok { v' with polls := v.polls + 1, visited := e.1 :: v.visited }) >>= f) := by
  simp only [GoesDown, takenOff, h, if_true, completed_cons, true_and, uncommitAll_reverse_cons]
  cases hpoll : env.interrupt v.polls with
  | true => exact ⟨rfl, by simp⟩
  | false =>
    simp only [Bool.false_eq_true, if_false, true_and]
    refine Ends.imp hf (fun _ hstopped => hstopped) fun v' hdone => ⟨hdone.1, ?_⟩
    have hrest := hdone.2
    split at hrest
    · obtain ⟨hskip, hfailure, hpolls, hvisited, hcoins⟩ := hrest
      rw [if_pos ‹_›]
      refine ⟨hskip, hfailure, ?_, ?_, hcoins⟩
      · rw [hpolls, length_cons, Nat.add_assoc, Nat.add_comm 1]
      · rw [hvisited]
        simp
    · rwa [if_neg ‹_›]

include hgenesis hregular hs hdisk in
theorem verifyBlocks_down (hlevel : 3 ≤ nCheckLevel)
    {cur : List ActiveBlock} (hsuffix : cur <:+ s.chain)
    (hchecked : checkedBlocks env cur (cur.length - 1 - low) = checked)
    (ht : straight rules keys cur = .ok t) (hcoins : v.coins = t.tip)
    (hskip : v.skippedL3Checks = false) (hfailure : v.pindexFailure = false) :
    GoesDown rules keys env v checked (cur.drop checked.length)
      (verifyBlocks rules keys env nCheckLevel low (cur.map Prod.fst) v) := by
  induction cur generalizing v t checked with
  | nil =>
    rw [checkedBlocks, take_nil, takeWhile_nil] at hchecked
    exact hchecked ▸ goesDown_nil ht hcoins hskip hfailure v.skippedNoBlockData
  | cons e rest ih =>
    have hnone (missing : Bool) : GoesDown rules keys env v [] (e :: rest)
        (.ok { v with skippedNoBlockData := missing }) :=
      goesDown_nil ht hcoins hskip hfailure missing
    obtain ⟨b, hb, hconnect⟩ := straight_cons.mp ht
    have hanc := (connectTip_ok hconnect).1
    rw [(grown_straight hgenesis hb).chain_eq] at hanc
    have hheight : e.1.nHeight = rest.length := by
      rw [BlockIndex.nHeight, hanc, chainHashes, length_map]
    by_cases hlow : rest.length ≤ low
    · rw [checkedBlocks_cons_of_le hlow] at hchecked
      subst hchecked
      cases rest with
      | nil => exact hnone v.skippedNoBlockData
      | cons prev rest =>
        rw [map_cons, map_cons, verifyBlocks, hheight, if_pos (by exact_mod_cast hlow)]
        exact hnone v.skippedNoBlockData
    · rw [checkedBlocks_cons (not_le.mp hlow)] at hchecked
      obtain ⟨prev, below, hrest⟩ := exists_cons_of_length_pos
        (Nat.zero_lt_of_lt (not_le.mp hlow))
      rw [hrest, map_cons, map_cons, verifyBlocks, ← map_cons, ← hrest, hheight,
        if_neg (by exact_mod_cast hlow)]
      split at hchecked
      · rw [if_pos ‹_›, ← hchecked]
        exact hnone true
      · rw [if_neg ‹_›, ← hchecked]
        by_cases htakes : takesOff rules keys env e = true
        · rw [verifyBlock_takesOff hgenesis hregular hs hdisk hlevel hsuffix
            (hrest ▸ cons_ne_nil _ _) hb hconnect hcoins htakes]
          refine goesDown_cons htakes ?_
          exact ih ((suffix_cons _ _).trans hsuffix) rfl hb rfl hskip hfailure
        · have htakes := eq_false_of_ne_true htakes
          have hbest : v.coins.bestBlock = e.1.hash := hcoins ▸ (connectTip_checked hconnect).2
          refine goesDown_blocked htakes ?_
          refine (verifyBlock_keeps hlevel (.inl htakes)).bind fun v' hv' => ?_
          obtain ⟨hstore, hskip', hcoins'⟩ := hv'
          refine hstore ▸ verifyBlocks_skipped hlevel low hskip' ?_
          rw [hcoins', hbest, ← hanc]
          exact (nodup_cons.mp e.1.distinct).1

end Down

section Up

include hgenesis hs hdisk in
/-- The way up: the blocks that were taken off connect again until an interruption. -/
theorem reconnectBlocks_up {todo : List ActiveBlock}
    (hsuffix : todo.reverse ++ below <:+ s.chain) (hbelow : below ≠ [])
    (htakes : ∀ e ∈ todo, takesOff rules keys env e = true) {b : Chainstate}
    (hb : straight rules keys below = .ok b) (hcoins : v.coins = b.tip)
    (himages : v.store.images = chainImages below) :
    EndsWith (commitAll (imageEntries (putBack env v.polls todo)) v.store) (fun _ => True)
      (reconnectBlocks rules env (todo.map Prod.fst) v) := by
  induction todo generalizing below v b with
  | nil => exact ⟨rfl, trivial⟩
  | cons e todo ih =>
    rw [reverse_cons, append_assoc, singleton_append] at hsuffix
    have hnext : e :: below <:+ s.chain := (suffix_append _ _).trans hsuffix
    obtain ⟨top, htop, -⟩ := hs.tip
    obtain ⟨t, ht⟩ := straight_suffix htop hnext
    obtain ⟨b', hb', hconnect⟩ := straight_cons.mp ht
    obtain rfl : b' = b := Except.ok.inj (hb'.symm.trans hb)
    have hgrown := grown_straight hgenesis hb
    obtain ⟨hread, -⟩ := hdisk.read (hnext.subset mem_cons_self)
      (htakes e mem_cons_self)
    obtain ⟨undo, hc⟩ := hgrown.connectBlock (hgrown.ne_genesis hbelow hconnect) hconnect himages
    rw [← hcoins] at hc
    have himages' : (commitBlockKIs e.1.hash e.2.keyImages v.store).images =
        chainImages (e :: below) := by
      rw [commitBlockKIs_images, himages, chainImages]
    rw [map_cons, reconnectBlocks, hread, putBack, commitAll_imageEntries_cons]
    simp only [hc, pollInterrupt]
    cases env.interrupt v.polls with
    | true => exact rfl
    | false =>
      exact ih hsuffix (cons_ne_nil _ _) (fun e' he' => htakes e' (mem_cons_of_mem _ he'))
        ht rfl himages'

theorem takenOff_of_completed {n : ℕ} (h : Completed rules keys env n checked) :
    takenOff rules keys env n checked = checked := by
  induction checked generalizing n with
  | nil => rfl
  | cons e rest ih =>
    obtain ⟨htakes, hpoll, hrest⟩ := completed_cons.mp h
    simp [takenOff, htakes, hpoll, ih hrest]

theorem takenOff_prefix (rules : Rules) (keys : PubKeys) (env : Surroundings) (n : ℕ)
    (checked : List ActiveBlock) :
    takenOff rules keys env n checked <+: checked := by
  induction checked generalizing n with
  | nil => exact prefix_rfl
  | cons e rest ih =>
    unfold takenOff
    split
    · refine (prefix_cons_inj e).mpr ?_
      split
      · exact nil_prefix
      · exact ih (n + 1)
    · exact nil_prefix

theorem putBack_prefix (env : Surroundings) (n : ℕ) (todo : List ActiveBlock) :
    putBack env n todo <+: todo := by
  induction todo generalizing n with
  | nil => exact prefix_rfl
  | cons e rest ih =>
    refine (prefix_cons_inj e).mpr ?_
    split
    · exact nil_prefix
    · exact ih (n + 1)

theorem checkedBlocks_prefix (chain : List ActiveBlock) (depth : ℕ) :
    checkedBlocks env chain depth <+: chain :=
  (List.takeWhile_prefix _).trans (List.take_prefix _ _)

theorem checkedBlocks_length_le (env : Surroundings) (chain : List ActiveBlock) (depth : ℕ) :
    (checkedBlocks env chain depth).length ≤ depth :=
  (List.takeWhile_prefix _).length_le.trans (length_take_le depth chain)

/-- The blocks taken off leave the key images of the chain below them. -/
theorem images_uncommitAll_chain {off : List ActiveBlock} {store : Store}
    (hsound : ChainSound (off ++ below)) (himages : store.images = chainImages (off ++ below)) :
    (uncommitAll (chainHashes off.reverse) store).images = chainImages below := by
  induction off generalizing store with
  | nil => exact himages
  | cons e off ih =>
    rw [uncommitAll_reverse_cons]
    exact ih hsound.2.2.2 (uncommitBlockKIs_chainImages hsound himages)

theorem finishVerifying_store {store : Store} {x : Checking}
    (h : EndsWith store (fun _ => True) x) : (finishVerifying x).2.store = store := by
  cases x with
  | error stopped => exact h
  | ok v =>
    unfold finishVerifying
    dsimp only
    split
    · exact h.1
    · split <;> exact h.1

variable (hlevel : 3 ≤ nCheckLevel)
include hgenesis hregular hs hdisk hlevel

/-- Both loops, from the state in which the check starts. -/
theorem verifyChain_store
    (hchecked : checkedBlocks env s.chain (s.chain.length - 1 - low) = checked)
    (hshort : checked.length < s.chain.length) :
    EndsWith (commitAll (imageEntries (putBackAt rules keys env nCheckLevel checked))
        (uncommitAll (chainHashes (takenOff rules keys env 0 checked).reverse) s.store))
      (fun _ => True) (verifyChain rules keys env nCheckLevel low (s.chain.map Prod.fst)
        (startVerifying s.tip s.store)) := by
  obtain ⟨t, ht, htip⟩ := hs.tip
  have hdown := verifyBlocks_down (v := startVerifying s.tip s.store) hgenesis hregular hs hdisk
    hlevel suffix_rfl hchecked ht htip.symm rfl rfl
  have hback (h : ¬ Completed rules keys env 0 checked) :
      putBackAt rules keys env nCheckLevel checked = [] := if_neg fun hback => h hback.2
  refine Ends.bind (Ends.imp hdown (fun stopped hstopped => ?_) fun v hv => hv) fun v hv => ?_
  · rw [hback hstopped.2]
    exact hstopped.1
  · obtain ⟨hstore, hend⟩ := hv
    by_cases hcompleted : Completed rules keys env 0 checked
    · rw [startVerifying, if_pos hcompleted] at hend
      obtain ⟨hskip, hfailure, hpolls, hvisited, b, hb, hcoins⟩ := hend
      rw [Nat.zero_add] at hpolls
      rw [append_nil] at hvisited
      have hsplit : checked ++ s.chain.drop checked.length = s.chain := by
        obtain ⟨below, hbelow⟩ := hchecked ▸ checkedBlocks_prefix s.chain _
        rw [← hbelow, drop_left]
      have himages : v.store.images = chainImages (s.chain.drop checked.length) := by
        rw [hstore, startVerifying, takenOff_of_completed hcompleted]
        refine images_uncommitAll_chain ?_ ?_
        · exact hsplit.symm ▸ hs.follow.sound
        · rw [hsplit, hs.follow.images]
      change EndsWith _ _ (rejectIf (v.pindexFailure = true) _ >>= fun _ => _)
      rw [rejectIf, if_neg (by simp [hfailure])]
      change EndsWith _ _ (ite _ _ _)
      by_cases hfour : 4 ≤ nCheckLevel
      · have hup := reconnectBlocks_up hgenesis hs hdisk
          (by rw [reverse_reverse, hsplit])
          (by rwa [ne_eq, drop_eq_nil_iff, not_le])
          (fun e he => hcompleted.1 e (mem_reverse.mp he)) hb hcoins himages
        rw [if_pos ⟨hfour, hskip⟩, putBackAt, if_pos ⟨hfour, hcompleted⟩, hvisited]
        rwa [hpolls, hstore] at hup
      · rw [if_neg fun h => hfour h.1, putBackAt, if_neg fun h => hfour h.1]
        exact ⟨hstore, trivial⟩
    · rw [startVerifying, if_neg hcompleted] at hend
      rw [hback hcompleted]
      refine Ends.bind (ends_rejectIf hstore) fun _ _ => ?_
      rw [if_neg (by simp [hend])]
      exact ⟨hstore, trivial⟩

/-- The store that the check leaves behind from level 3 on. -/
theorem verifyDB_store {chain : IndexChain rules} (hchain : chain.blocks = s.chain.map Prod.fst)
    (nCheckDepth : ℤ)
    (hchecked : checkedBlocks env s.chain (checkedDepth s.chain.length nCheckDepth) = checked) :
    (verifyDB rules keys env nCheckLevel chain s.tip s.store nCheckDepth).2.store =
      commitAll (imageEntries (putBackAt rules keys env nCheckLevel checked))
        (uncommitAll (chainHashes (takenOff rules keys env 0 checked).reverse) s.store) := by
  have hlength : chain.blocks.length = s.chain.length := by rw [hchain, length_map]
  unfold verifyDB
  split
  · rename_i hshort
    have hdepth : checkedDepth s.chain.length nCheckDepth = 0 := by
      unfold checkedDepth
      split <;> omega
    rw [hdepth, checkedBlocks, take_zero, takeWhile_nil] at hchecked
    subst hchecked
    unfold putBackAt
    split <;> rfl
  · rename_i hlong
    have hdepth : checkedDepth s.chain.length nCheckDepth ≤ s.chain.length - 1 ∧
        (checkedDepth s.chain.length nCheckDepth : ℤ) =
          if nCheckDepth ≤ 0 ∨ (s.chain.length : ℤ) - 1 < nCheckDepth then (s.chain.length : ℤ) - 1
          else nCheckDepth := by
      unfold checkedDepth
      split <;> omega
    generalize checkedDepth s.chain.length nCheckDepth = depth at hchecked hdepth
    have hlow : ((s.chain.length : ℤ) - 1) - depth = ((s.chain.length - 1 - depth : ℕ) : ℤ) := by
      omega
    have hshort : checked.length < s.chain.length := by
      have hle := hchecked ▸ checkedBlocks_length_le env s.chain depth
      omega
    have hclamp : 4 ≤ max 0 (min 4 nCheckLevel) ↔ 4 ≤ nCheckLevel := by omega
    have hends := verifyChain_store hgenesis hregular hs hdisk
      (show 3 ≤ max 0 (min 4 nCheckLevel) by omega)
      (show checkedBlocks env s.chain (s.chain.length - 1 - (s.chain.length - 1 - depth)) = checked
        by rw [← hchecked]; congr 1; omega) hshort
    have hfinish := finishVerifying_store hends
    simp only [putBackAt, hclamp] at hfinish ⊢
    rw [hchain, length_map, ← hdepth.2, hlow]
    exact hfinish

end Up

section Rings

variable {top back below chain : List ActiveBlock} {store : Store}

theorem ChainSound.hashes_nodup (h : ChainSound chain) : (chainHashes chain).Nodup := by
  induction chain with
  | nil => exact nodup_nil
  | cons e rest ih => exact nodup_cons.mpr ⟨h.hash_notMem, ih h.2.2.2⟩

theorem chainImages_append_of_plain (h : ∀ e ∈ top, e.2.keyImages = []) :
    chainImages (top ++ below) = chainImages below := by
  induction top with
  | nil => rfl
  | cons e top ih =>
    rw [forall_mem_cons] at h
    rw [cons_append, chainImages, if_pos h.1, ih h.2]

theorem images_commitAll_chain (back : List ActiveBlock)
    (himages : store.images = chainImages below) :
    (commitAll (imageEntries back.reverse) store).images = chainImages (back ++ below) := by
  induction back with
  | nil => exact himages
  | cons e back ih =>
    rw [reverse_cons, imageEntries_append, commitAll, foldl_append, ← commitAll,
      ← commitAll, commitAll_imageEntries_cons, cons_append, chainImages, ← ih]
    exact commitBlockKIs_images _ _ _

/-- The blocks of a chain that have buckets are those with ring inputs. -/
theorem ChainSound.exists_bucket_iff (hsound : ChainSound (top ++ below)) :
    (∃ blockHash ∈ chainHashes top.reverse, blockHash ∈ (chainImages (top ++ below)).buckets) ↔
      ∃ e ∈ top, e.2.keyImages ≠ [] := by
  constructor
  · rintro ⟨blockHash, htop, hbucket⟩
    obtain ⟨e, he, rfl⟩ := mem_map.mp htop
    rw [mem_reverse] at he
    obtain ⟨e', he', heq, hne⟩ := hash_mem_of_bucket hbucket
    obtain rfl := inj_on_of_nodup_map (ChainSound.hashes_nodup hsound) he'
      (mem_append_left _ he) heq
    exact ⟨e', he, hne⟩
  · rintro ⟨e, he, hne⟩
    refine ⟨e.1.hash, mem_map_of_mem (mem_reverse.mpr he), ?_⟩
    rw [← Std.ExtTreeMap.isSome_getElem?_iff_mem,
      hsound.bucket (mem_append_left _ he) hne]
    rfl

/-- Blocks are taken off a chain and the lower ones put back. The store is as before exactly when
the upper ones have no key images, and a file that was written anew was written as before. -/
theorem commitAll_uncommitAll_chain (hsound : ChainSound (top ++ back ++ below))
    (himages : store.images = chainImages (top ++ back ++ below)) :
    commitAll (imageEntries back.reverse)
        (uncommitAll (chainHashes (top ++ back).reverse) store) = store ↔
      (∀ e ∈ top, e.2.keyImages = []) ∧
      ((∃ e ∈ back, e.2.keyImages ≠ []) → store.pathSet = true →
        store.file = some (kKIFileMagic ++
          writeEntries ((chainImages below).entries ++ imageEntries back.reverse))) := by
  have hoff := images_uncommitAll_chain hsound himages
  have hend := images_commitAll_chain back hoff
  have hnd := hsound.nodup
  simp only [chainKeyImages, flatMap_append] at hnd
  obtain ⟨htopback, -, hbelow⟩ := nodup_append'.mp hnd
  obtain ⟨-, hback, htop⟩ := nodup_append'.mp htopback
  have hperm : ((imageEntries back.reverse).flatMap Prod.snd).Perm
      (back.flatMap fun e => e.2.keyImages) := by
    rw [flatMap_imageEntries]
    exact (reverse_perm back).flatMap_right _
  -- the key images come back exactly when the upper blocks have none
  have htop_iff : chainImages (back ++ below) = chainImages (top ++ back ++ below) ↔
      ∀ e ∈ top, e.2.keyImages = [] := by
    rw [append_assoc]
    refine ⟨fun heq e he => ?_, fun h => (chainImages_append_of_plain h).symm⟩
    rw [eq_nil_iff_forall_not_mem]
    intro ki hki
    have hupper : ki ∈ chainKeyImages top := mem_flatMap.mpr ⟨e, he, hki⟩
    have hlower : ki ∈ (chainImages (back ++ below)).members := by
      rw [heq, mem_members_chainImages, chainKeyImages, flatMap_append]
      exact mem_append_left _ hupper
    rw [mem_members_chainImages, chainKeyImages, flatMap_append, mem_append] at hlower
    rcases hlower with hlower | hlower
    · exact htop hupper hlower
    · exact hbelow (mem_append_left _ hupper) hlower
  by_cases hany : ∃ e ∈ top ++ back, e.2.keyImages ≠ []
  · have hbuckets := himages ▸ (ChainSound.exists_bucket_iff hsound).mpr hany
    have hfile := commitAll_uncommitAll_file
      (fun e (he : e ∈ imageEntries back.reverse) => by simpa using (mem_filter.mp he).2)
      (hperm.nodup_iff.mpr hback) (fun ki hki => by
        rw [hoff, mem_members_chainImages]
        exact hbelow (mem_append_right _ (hperm.mem_iff.mp hki))) hbuckets
    rw [hoff] at hfile
    constructor
    · intro heq
      rw [heq] at hend hfile
      exact ⟨htop_iff.mp (hend.symm.trans himages), fun _ hpath => by rw [hfile, if_pos hpath]⟩
    · rintro ⟨hplain, hwritten⟩
      refine Store.ext (hend.trans ((htop_iff.mpr hplain).trans himages.symm)) ?_
        (pathSet_commitAll_uncommitAll _ _ _)
      rw [hfile]
      split
      · refine (hwritten ?_ ‹_›).symm
        obtain ⟨e, he, hne⟩ := hany
        exact ⟨e, (mem_append.mp he).resolve_left fun he => hne (hplain e he), hne⟩
      · rfl
  · have hplain (e : ActiveBlock) (he : e ∈ top ++ back) : e.2.keyImages = [] :=
      not_not.mp fun hne => hany ⟨e, he, hne⟩
    rw [imageEntries_eq_nil fun e he => hplain e (mem_append_right _ (mem_reverse.mp he)),
      uncommitAll_eq, if_neg (himages ▸ mt (ChainSound.exists_bucket_iff hsound).mp hany)]
    refine iff_of_true rfl ⟨fun e he => hplain e (mem_append_left _ he), ?_⟩
    rintro ⟨e, he, hne⟩
    exact absurd (hplain e (mem_append_right _ he)) hne

/-- All of the checked blocks are taken off, and some of them put back, the lowest first. -/
theorem commitAll_uncommitAll_checked {later : List ActiveBlock}
    (hlater : back ++ later = checked.reverse) (hsound : ChainSound (checked ++ below))
    (himages : store.images = chainImages (checked ++ below)) :
    commitAll (imageEntries back) (uncommitAll (chainHashes checked.reverse) store) = store ↔
      (∀ e ∈ checked, e.2.keyImages = []) ∨
      (∀ e ∈ checked, e.2.keyImages ≠ [] → e ∈ back) ∧
      (store.pathSet = true → store.file = some (kKIFileMagic ++
        writeEntries ((chainImages below).entries ++ imageEntries checked.reverse))) := by
  have hsplit : later.reverse ++ back.reverse = checked := by
    rw [← reverse_append, hlater, reverse_reverse]
  have hmem (e : ActiveBlock) : e ∈ checked ↔ e ∈ back ∨ e ∈ later := by
    rw [← mem_reverse, ← hlater, mem_append]
  have hnd : (back ++ later).Nodup := by
    rw [hlater, nodup_reverse]
    have hhashes := ChainSound.hashes_nodup hsound
    rw [chainHashes, map_append] at hhashes
    exact (nodup_append'.mp hhashes).1.of_map
  have hiff := commitAll_uncommitAll_chain (hsplit.symm ▸ hsound) (hsplit.symm ▸ himages)
  rw [reverse_reverse, hsplit] at hiff
  simp only [mem_reverse] at hiff
  rw [hiff]
  have hentries (h : ∀ e ∈ later, e.2.keyImages = []) :
      imageEntries checked.reverse = imageEntries back := by
    rw [← hlater, imageEntries_append, imageEntries_eq_nil h, append_nil]
  constructor
  · rintro ⟨hplain, hfile⟩
    have hrings (e : ActiveBlock) (he : e ∈ checked) (hne : e.2.keyImages ≠ []) : e ∈ back :=
      ((hmem e).mp he).resolve_right fun he => hne (hplain e he)
    by_cases hany : ∃ e ∈ checked, e.2.keyImages ≠ []
    · obtain ⟨e, he, hne⟩ := hany
      exact .inr ⟨hrings, hentries hplain ▸ hfile ⟨e, hrings e he hne, hne⟩⟩
    · exact .inl fun e he => not_not.mp fun hne => hany ⟨e, he, hne⟩
  · rintro (hplain | ⟨hrings, hfile⟩)
    · refine ⟨fun e he => hplain e ((hmem e).mpr (.inr he)), ?_⟩
      rintro ⟨e, he, hne⟩
      exact absurd (hplain e ((hmem e).mpr (.inl he))) hne
    · have hplain (e : ActiveBlock) (he : e ∈ later) : e.2.keyImages = [] := by
        by_contra hne
        exact (nodup_append'.mp hnd).2.2 (hrings e ((hmem e).mpr (.inr he)) hne) he
      exact ⟨hplain, fun _ => hentries hplain ▸ hfile⟩

end Rings

section Result

/-- At levels 0 to 2 the check leaves every store as it was. -/
theorem verifyDB_store_of_low (hlevel : nCheckLevel < 3) (chain : IndexChain rules)
    (coinsview : CoinsTip) (store : Store) (nCheckDepth : ℤ) :
    (verifyDB rules keys env nCheckLevel chain coinsview store nCheckDepth).2.store = store := by
  have hclamp : max 0 (min 4 nCheckLevel) < 3 := by omega
  unfold verifyDB
  split
  · rfl
  · refine finishVerifying_store (Ends.bind (verifyBlocks_low hclamp _ _ _) fun v hv => ?_)
    refine Ends.bind (ends_rejectIf hv.1) fun _ _ => ?_
    rw [if_neg fun h => absurd h.1 (by omega)]
    exact hv

variable (rules keys env) in
/-- Level 4 puts every block with ring inputs back, and the file already was as it is written
then: the buckets of the blocks below the checked ones in the order of their hashes, and the
checked blocks in the order of the chain. -/
structure PutsAllBack (chain : List ActiveBlock) (store : Store) (checked : List ActiveBlock) :
    Prop where
  completed : Completed rules keys env 0 checked
  rings : ∀ e ∈ checked, e.2.keyImages ≠ [] → e ∈ putBack env checked.length checked.reverse
  file : store.pathSet = true → store.file = some (kKIFileMagic ++ writeEntries
    ((chainImages (chain.drop checked.length)).entries ++ imageEntries checked.reverse))

include hgenesis hregular hs hdisk in
/-- The store of a rebuilt state comes through the check unchanged under a condition on the inputs
alone. -/
theorem verifyDB_rebuilt_iff {chain : IndexChain rules}
    (hchain : chain.blocks = s.chain.map Prod.fst) (nCheckDepth : ℤ)
    (hchecked : checkedBlocks env s.chain (checkedDepth s.chain.length nCheckDepth) = checked) :
    (verifyDB rules keys env nCheckLevel chain s.tip s.store nCheckDepth).2.store = s.store ↔
      nCheckLevel < 3 ∨ (∀ e ∈ takenOff rules keys env 0 checked, e.2.keyImages = []) ∨
      4 ≤ nCheckLevel ∧ PutsAllBack rules keys env s.chain s.store checked := by
  by_cases hlow : nCheckLevel < 3
  · exact iff_of_true (verifyDB_store_of_low hlow _ _ _ _) (.inl hlow)
  rw [verifyDB_store hgenesis hregular hs hdisk (not_lt.mp hlow) hchain nCheckDepth hchecked]
  simp only [hlow, false_or]
  obtain ⟨below, hbelow⟩ := hchecked ▸ checkedBlocks_prefix s.chain _
  obtain ⟨himages, hsound⟩ := hs.follow
  by_cases hcomplete : 4 ≤ nCheckLevel ∧ Completed rules keys env 0 checked
  · obtain ⟨later, hlater⟩ := putBack_prefix env checked.length checked.reverse
    have hdrop : s.chain.drop checked.length = below := by rw [← hbelow, drop_left]
    rw [putBackAt, if_pos hcomplete, takenOff_of_completed hcomplete.2,
      commitAll_uncommitAll_checked hlater (hbelow.symm ▸ hsound) (hbelow.symm ▸ himages)]
    refine or_congr Iff.rfl ⟨fun h => ?_, fun h => ⟨h.2.rings, hdrop ▸ h.2.file⟩⟩
    exact ⟨hcomplete.1, hcomplete.2, h.1, hdrop.symm ▸ h.2⟩
  · obtain ⟨left, hleft⟩ := takenOff_prefix rules keys env 0 checked
    have hchain' : takenOff rules keys env 0 checked ++ [] ++ (left ++ below) = s.chain := by
      rw [append_nil, ← append_assoc, hleft, hbelow]
    have hiff := commitAll_uncommitAll_chain (hchain'.symm ▸ hsound) (hchain'.symm ▸ himages)
    simp only [append_nil, not_mem_nil, false_and, exists_false, false_imp_iff,
      and_true] at hiff
    rw [putBackAt, if_neg hcomplete]
    refine hiff.trans ⟨.inl, fun h => h.resolve_right fun h => hcomplete ⟨h.1, h.2.completed⟩⟩

/-- Whatever the blocks connected and disconnected before, the level, the depth, the data on disk
and the interruptions: the check leaves the key-image store as it was exactly below level 3, when
no block that it takes off has ring inputs, and when it puts all of those that have any back and
the file was in the order of the rewrite. -/
theorem verifyDB_store_eq_iff (hgenesis : GenesisPlain rules) {empty : Store}
    (hempty : empty.images = .empty) {steps : List TipStep}
    (hregular : Regular (connectedBlocks steps))
    (hrun : run (tipStep rules keys) (emptyChain empty) steps = .ok s)
    (hdisk : Genuine rules keys env s) {store : Store} (hstore : store.images = s.store.images)
    {chain : IndexChain rules} (hchain : chain.blocks = s.chain.map Prod.fst) (nCheckDepth : ℤ)
    {checked : List ActiveBlock}
    (hchecked : checkedBlocks env s.chain (checkedDepth s.chain.length nCheckDepth) = checked) :
    (verifyDB rules keys env nCheckLevel chain s.tip store nCheckDepth).2.store = store ↔
      nCheckLevel < 3 ∨ (∀ e ∈ takenOff rules keys env 0 checked, e.2.keyImages = []) ∨
      4 ≤ nCheckLevel ∧ PutsAllBack rules keys env s.chain store checked := by
  obtain ⟨among, ⟨himages, hsound⟩, tip, active, records⟩ :=
    rebuilt_run hgenesis hempty hregular hrun
  -- the file is not part of what a run determines
  have hs : Rebuilt rules keys (connectedBlocks steps) { s with store := store } :=
    ⟨among, ⟨hstore.trans himages, hsound⟩, tip, active, records⟩
  exact verifyDB_rebuilt_iff hgenesis hregular hs ⟨hdisk.blocks, hdisk.undo⟩ hchain nCheckDepth
    hchecked

end Result

section Sample

theorem ChainSound.linked {chain : List ActiveBlock} (h : ChainSound chain) :
    Linked (chain.map Prod.fst) := by
  induction chain with
  | nil => trivial
  | cons e rest ih =>
    obtain ⟨hanc, -, -, hrest⟩ := h
    exact ⟨by rw [hanc, chainHashes, List.map_map]; rfl, ih hrest⟩

theorem sampleBlocks_chain {store : Store} {s : Chainstate}
    (h : run (connectNext sampleRules samplePubKeys) (emptyChain store) sampleBlocks = .ok s) :
    s.chain = sampleBlocks.reverse := by
  rw [run_connectNext_chain h, emptyChain, append_nil]

theorem sampleBlocks_sound : ChainSound sampleBlocks.reverse := by
  obtain ⟨s, hs, -⟩ := succeeds_iff.mp sampleBlocks_run
  obtain ⟨t, ht, -⟩ := run_append.mp hs
  have hfollow := imagesFollow_run sampleRules_genesisPlain (run_tipStep_of_connectNext ht)
    ⟨rfl, trivial⟩
  exact sampleBlocks_chain ht ▸ hfollow.sound

def sampleIndexChain : IndexChain sampleRules where
  blocks := sampleBlocks.reverse.map Prod.fst
  linked := ChainSound.linked sampleBlocks_sound
  rooted pindex h := by
    rw [List.getLast?_map, List.getLast?_reverse] at h
    have hfirst : sampleBlocks.head? = some (sampleActive 0 []) := rfl
    rw [hfirst, map_some, mem_some_iff] at h
    subst h
    rfl

/-- All data is there, the caches are large enough and nothing interrupts the check. -/
def sampleSurroundings (s : Chainstate) : Surroundings where
  readBlock pindex := (s.chain.find? (fun e => e.1.hash = pindex.hash)).map Prod.snd
  undoFiles := s.undoFiles
  isPruneMode := false
  isSnapshot := false
  haveData _ := true
  cacheFits _ := true
  interrupt _ := false

/-- At level 3 the check of the tip alone takes the key image out of the store. -/
theorem verifyDB_drops_keyImage :
    ∃ s, run (connectNext sampleRules samplePubKeys) (emptyChain ⟨.empty, none, true⟩)
        sampleBlocks = .ok s ∧
      sampleIndexChain.blocks = s.chain.map Prod.fst ∧
      .replicate 33 50 ∈ s.store.images.members ∧
      ∃ v, verifyDB sampleRules samplePubKeys (sampleSurroundings s) 3 sampleIndexChain s.tip
          s.store 1 = (.success, v) ∧
        v.store.images.members = ∅ ∧ v.store.file = some kKIFileMagic := by
  have hrun : succeeds (fun s => decide (.replicate 33 50 ∈ s.store.images.members) &&
      let v := verifyDB sampleRules samplePubKeys (sampleSurroundings s) 3 sampleIndexChain s.tip
        s.store 1
      decide (v.1 = .success ∧ v.2.store.images.members = ∅ ∧
        v.2.store.file = some kKIFileMagic))
      (run (connectNext sampleRules samplePubKeys) (emptyChain ⟨.empty, none, true⟩)
        sampleBlocks) = true := by
    decide +kernel
  obtain ⟨s, hs, hcheck⟩ := succeeds_iff.mp hrun
  generalize hv : verifyDB sampleRules samplePubKeys (sampleSurroundings s) 3 sampleIndexChain s.tip
    s.store 1 = v at hcheck
  simp only [Bool.and_eq_true, decide_eq_true_eq] at hcheck
  obtain ⟨hmem, hsuccess, hnone, hfile⟩ := hcheck
  refine ⟨s, hs, ?_, hmem, v.2, ?_, hnone, hfile⟩
  · rw [sampleBlocks_chain hs, sampleIndexChain]
  · rw [hv, ← hsuccess]

theorem sampleBlocks_regular : Regular (connectedBlocks (sampleBlocks.map fun b =>
    .connect b.1 b.2)) := by
  have hblocks : connectedBlocks (sampleBlocks.map fun b => .connect b.1 b.2) = sampleBlocks := by
    rw [connectedBlocks, filterMap_map]
    exact filterMap_some
  rw [hblocks]
  refine ⟨fun e he e' he' heq => ?_, by decide +kernel⟩
  exact inj_on_of_nodup_map (ChainSound.hashes_nodup sampleBlocks_sound)
    (mem_reverse.mpr he) (mem_reverse.mpr he') heq

theorem sampleSurroundings_genuine {s : Chainstate} (hsound : ChainSound s.chain) :
    Genuine sampleRules samplePubKeys (sampleSurroundings s) s := by
  refine ⟨fun e he block hblock => ?_, fun _ _ _ hfile _ => hfile⟩
  obtain ⟨e', hfind, rfl⟩ := map_eq_some_iff.mp hblock
  have hhash := List.find?_some hfind
  rw [inj_on_of_nodup_map (ChainSound.hashes_nodup hsound) (mem_of_find?_eq_some hfind) he
    (of_decide_eq_true hhash)]

/-- Where the file has the header and the tip's entry last, the full check writes it as it was. -/
theorem verifyDB_store_eq_iff_full :
    ∃ s, run (tipStep sampleRules samplePubKeys)
        (emptyChain ⟨.empty, some kKIFileMagic, true⟩)
        (sampleBlocks.map fun b => .connect b.1 b.2) = .ok s ∧
      .replicate 33 50 ∈ s.store.images.members ∧
      (verifyDB sampleRules samplePubKeys (sampleSurroundings s) 4 sampleIndexChain s.tip
        s.store 1).2.store = s.store := by
  have hsucceeds : succeeds (fun s =>
      decide (.replicate 33 50 ∈ s.store.images.members) &&
      decide (Completed sampleRules samplePubKeys (sampleSurroundings s) 0
        (s.chain.take 1)) &&
      decide (s.store.file = some (kKIFileMagic ++ writeEntries
        ((chainImages (s.chain.drop 1)).entries ++ imageEntries (s.chain.take 1).reverse))))
      (run (connectNext sampleRules samplePubKeys)
        (emptyChain ⟨.empty, some kKIFileMagic, true⟩) sampleBlocks) = true := by
    decide +kernel
  obtain ⟨s, hs, hcheck⟩ := succeeds_iff.mp hsucceeds
  simp only [Bool.and_eq_true, decide_eq_true_eq] at hcheck
  obtain ⟨⟨hmem, hcompleted⟩, hfile⟩ := hcheck
  have hrun := run_tipStep_of_connectNext hs
  have hchain := sampleBlocks_chain hs
  have htip : s.chain.take 1 = [sampleBlocks.reverse.head (by simp [sampleBlocks])] := by
    rw [hchain]
    rfl
  have hchecked : checkedBlocks (sampleSurroundings s) s.chain (checkedDepth s.chain.length 1) =
      s.chain.take 1 := by
    have hdepth : checkedDepth s.chain.length 1 = 1 := by
      rw [hchain, length_reverse]
      rfl
    rw [hdepth, htip, checkedBlocks, htip]
    rfl
  refine ⟨s, hrun, hmem, (verifyDB_store_eq_iff sampleRules_genesisPlain rfl sampleBlocks_regular
    hrun (sampleSurroundings_genuine (hchain ▸ sampleBlocks_sound)) rfl (by rw [hchain]; rfl) 1
    hchecked).mpr (.inr (.inr ⟨le_rfl, hcompleted, fun e he _ => ?_, fun _ => ?_⟩))⟩
  · rw [htip] at he ⊢
    exact he
  · rw [htip] at hfile ⊢
    exact hfile

end Sample

end Pricoin.VerifyDB
