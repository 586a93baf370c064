import Pricoin.ActiveChain

/-!
Reorganizations leave no trace. The coins and the key images behind an active chain
are those of connecting its blocks one after the other, whatever was connected and
disconnected on the way there, and the undo record of each block is the one that
this connection writes. So the tip of a chain that a run has reached comes off
cleanly and leaves the coins and key images that were there before it.
-/
namespace Pricoin.Reorganizations

open Checks Runs TaggedSets KeyImageFile KeyImageStore Transactions Coins BlockConnection UndoCodec
open List Option
open BlockDisconnection ConnectDisconnect ActiveChain

variable {store : Store} {steps : List TipStep}

/-- The blocks that a run connects. -/
def connectedBlocks (steps : List TipStep) : List ActiveBlock :=
  steps.filterMap fun
    | .connect pindexNew block => some (pindexNew, block)
    | .disconnect => none

/-- Blocks with one entry and one body for each hash, all under the check against outputs that
overwrite unspent coins. -/
structure Regular (blocks : List ActiveBlock) : Prop where
  unique : ∀ e ∈ blocks, ∀ e' ∈ blocks, e.1.hash = e'.1.hash → e = e'
  bip30 : ∀ e ∈ blocks, enforceBIP30 e.1

theorem Regular.mono {blocks blocks' : List ActiveBlock} (h : Regular blocks)
    (hsub : ∀ e ∈ blocks', e ∈ blocks) : Regular blocks' :=
  ⟨fun e he e' he' => h.unique e (hsub e he) e' (hsub e' he'), fun e he => h.bip30 e (hsub e he)⟩

theorem Regular.eq_of_chainHashes {blocks chain chain' : List ActiveBlock} (h : Regular blocks)
    (hchain : ∀ e ∈ chain, e ∈ blocks) (hchain' : ∀ e ∈ chain', e ∈ blocks)
    (heq : chainHashes chain = chainHashes chain') : chain = chain' := by
  induction chain generalizing chain' with
  | nil => exact (map_eq_nil_iff.mp heq.symm).symm
  | cons e rest ih =>
    obtain ⟨e', rest', rfl, hhash, hrest⟩ := map_eq_cons_iff.mp heq.symm
    rw [forall_mem_cons] at hchain hchain'
    rw [h.unique e hchain.1 e' hchain'.1 hhash.symm, ih hchain.2 hchain'.2 hrest.symm]

section Straight

variable (rules : Rules) (keys : PubKeys)

/-- Connect the blocks of a chain one after the other, from no coins and no key images. -/
def straight : List ActiveBlock → Except BlockError Chainstate
  | [] => .ok (emptyChain ⟨.empty, none, false⟩)
  | e :: rest => do
    let s ← straight rest
    connectTip rules keys e.1 e.2 s

variable {rules keys} {e : ActiveBlock} {chain rest : List ActiveBlock} {s s' b t : Chainstate}

theorem straight_cons : straight rules keys (e :: rest) = .ok t ↔
    ∃ b, straight rules keys rest = .ok b ∧ connectTip rules keys e.1 e.2 b = .ok t := by
  rw [straight, bind_ok]

theorem straight_suffix (h : straight rules keys chain = .ok t) (hrest : rest <:+ chain) :
    ∃ b, straight rules keys rest = .ok b := by
  induction chain generalizing t with
  | nil => exact ⟨t, suffix_nil.mp hrest ▸ h⟩
  | cons e below ih =>
    rcases suffix_cons_iff.mp hrest with rfl | hbelow
    · exact ⟨t, h⟩
    · obtain ⟨b, hb, -⟩ := straight_cons.mp h
      exact ih hb hbelow

/-- What is known of the state behind a straight connection. -/
structure Grown (rules : Rules) (chain : List ActiveBlock) (t : Chainstate) : Prop where
  chain_eq : t.chain = chain
  rooted : chain ≠ [] → rules.hashGenesisBlock ∈ chainHashes chain
  follow : ImagesFollow t
  stored : ViewStored t.tip.coins
  unrecorded : ∀ hash ∉ chainHashes chain, t.undoFiles hash = none

theorem recordUndo_of_ne {pindex : BlockIndex} {undo : Option BlockUndo}
    {undoFiles : BlockHash → Option (List UInt8)} {hash : BlockHash} (h : hash ≠ pindex.hash) :
    recordUndo rules keys pindex undo undoFiles hash = undoFiles hash := by
  unfold recordUndo
  cases undo with
  | none => rfl
  | some undo => cases hfile : undoFiles pindex.hash <;> simp [h]

theorem recordUndo_self (pindex : BlockIndex) (undo : Option BlockUndo)
    (undoFiles : BlockHash → Option (List UInt8)) :
    recordUndo rules keys pindex undo undoFiles pindex.hash = (undoFiles pindex.hash).or
      (undo.map (writeBlockUndo rules.crypto keys pindex.prevHash)) := by
  unfold recordUndo
  cases undo with
  | none => simp
  | some undo => cases hfile : undoFiles pindex.hash <;> simp [hfile]

theorem connectTip_rooted (h : connectTip rules keys e.1 e.2 s = .ok s')
    (hs : s.chain ≠ [] → rules.hashGenesisBlock ∈ chainHashes s.chain) :
    rules.hashGenesisBlock ∈ chainHashes (e :: s.chain) := by
  obtain ⟨hanc, c, hc, -⟩ := connectTip_ok h
  rcases connectBlock_ok hc with ⟨heq, -⟩ | ⟨p, hconn⟩
  · exact heq ▸ mem_cons_self
  · have hparent := hconn.parent
    rw [hanc, chainHashes, ne_eq, map_eq_nil_iff] at hparent
    exact mem_cons_of_mem _ (hs hparent)

theorem grown_straight (hgenesis : GenesisPlain rules) (h : straight rules keys chain = .ok t) :
    Grown rules chain t := by
  induction chain generalizing t with
  | nil =>
    rw [straight, Except.ok.injEq] at h
    subst h
    exact ⟨rfl, fun hne => absurd rfl hne, ⟨rfl, trivial⟩, fun _ _ hc => by simp [emptyChain] at hc,
      fun _ _ => rfl⟩
  | cons e rest ih =>
    obtain ⟨b, hb, ht⟩ := straight_cons.mp h
    obtain ⟨rfl, hrooted, hfollow, hstored, hnone⟩ := ih hb
    have hfollow' := imagesFollow_connectTip hgenesis ht hfollow
    have hrooted' := connectTip_rooted ht hrooted
    obtain ⟨-, c, hc, rfl⟩ := connectTip_ok ht
    refine ⟨rfl, fun _ => hrooted', hfollow', viewStored_connectBlock hc hstored,
      fun hash hhash => ?_⟩
    rw [chainHashes, map_cons, mem_cons, not_or] at hhash
    exact (recordUndo_of_ne hhash.1).trans (hnone hash hhash.2)

theorem Grown.ne_genesis (hb : Grown rules rest b) (hrest : rest ≠ [])
    (ht : connectTip rules keys e.1 e.2 b = .ok t) : e.1.hash ≠ rules.hashGenesisBlock := by
  intro heq
  have hmem := hb.rooted hrest
  rw [← hb.chain_eq, ← (connectTip_ok ht).1, ← heq] at hmem
  exact (nodup_cons.mp e.1.distinct).1 hmem

theorem connectTip_checked (h : connectTip rules keys e.1 e.2 s = .ok s') :
    checkBlock rules true true e.2 e.1.nHeight = .ok () ∧ s'.tip.bestBlock = e.1.hash := by
  obtain ⟨-, c, hc, rfl⟩ := connectTip_ok h
  refine ⟨?_, ?_⟩
  · simp only [connectBlock, bind_ok] at hc
    obtain ⟨-, -, u, hcheck, -⟩ := hc
    exact hcheck
  · rcases connectBlock_ok hc with ⟨-, -, -, rfl⟩ | ⟨p, hconn⟩
    · rfl
    · rw [hconn.result]

/-- What a connection writes to the undo files. -/
theorem connectTip_undo (h : connectTip rules keys e.1 e.2 s = .ok s') :
    ∃ c, connectBlock rules false e.2 e.1 s.tip s.store = .ok c ∧ s'.tip = c.tip ∧
      s'.undoFiles e.1.hash = (s.undoFiles e.1.hash).or
        (c.undo.map (writeBlockUndo rules.crypto keys e.1.prevHash)) ∧
      (∀ hash ≠ e.1.hash, s'.undoFiles hash = s.undoFiles hash) ∧
      (e.1.hash ≠ rules.hashGenesisBlock → c.undo ≠ none) := by
  obtain ⟨-, c, hc, rfl⟩ := connectTip_ok h
  refine ⟨c, hc, rfl, recordUndo_self _ _ _, fun hash hne => recordUndo_of_ne hne, fun hne => ?_⟩
  rcases connectBlock_ok hc with ⟨heq, -⟩ | ⟨p, hconn⟩
  · exact absurd heq hne
  · simp [hconn.result]

/-- A block that connects does so to the same chain, coins and key images again. -/
theorem connectTip_again (h : connectTip rules keys e.1 e.2 s = .ok s')
    (hchain : t.chain = s.chain) (htip : t.tip = s.tip)
    (himages : t.store.images = s.store.images) :
    ∃ u, connectTip rules keys e.1 e.2 t = .ok u ∧ u.tip = s'.tip ∧
      (t.undoFiles e.1.hash = none → s.undoFiles e.1.hash = none →
        u.undoFiles e.1.hash = s'.undoFiles e.1.hash) := by
  obtain ⟨hanc, c, hc, rfl⟩ := connectTip_ok h
  have hkis (ki : Point) (_ : ki ∈ e.2.keyImages) :
      ki ∈ s.store.images.members ↔ ki ∈ t.store.images.members := by rw [himages]
  have hagain := connectBlock_congr hkis hc
  rw [connectTip, rejectIf, hchain, if_neg (not_not.mpr hanc), htip, hagain]
  refine ⟨_, rfl, rfl, fun hnone hnone' => ?_⟩
  simp only [recordUndo_self, hnone, hnone']

variable (hb : Grown rules rest b) (hne : e.1.hash ≠ rules.hashGenesisBlock)
include hb hne

/-- A block above the genesis block has written its undo record. -/
theorem Grown.undo (ht : connectTip rules keys e.1 e.2 b = .ok t) :
    ∃ c undo, connectBlock rules false e.2 e.1 b.tip b.store = .ok c ∧ t.tip = c.tip ∧
      c.undo = some undo ∧
      t.undoFiles e.1.hash = some (writeBlockUndo rules.crypto keys e.1.prevHash undo) := by
  have hnew : e.1.hash ∉ chainHashes rest := by
    have hanc := (connectTip_ok ht).1
    rw [hb.chain_eq] at hanc
    exact hanc ▸ (nodup_cons.mp e.1.distinct).1
  obtain ⟨c, hc, htip, hfile, -, hwritten⟩ := connectTip_undo ht
  obtain ⟨undo, hundo⟩ := ne_none_iff_exists'.mp (hwritten hne)
  rw [hb.unrecorded _ hnew, hundo, none_or, map_some] at hfile
  exact ⟨c, undo, hc, htip, hundo, hfile⟩

/-- The last block of a straight connection comes off cleanly, whatever store is given. -/
theorem Grown.disconnectBlock (hbip30 : enforceBIP30 e.1)
    (ht : connectTip rules keys e.1 e.2 b = .ok t) (store : Store) :
    disconnectBlock rules.crypto keys e.2 e.1 (t.undoFiles e.1.hash) t.tip store =
      .ok ⟨true, b.tip, uncommitBlockKIs e.1.hash store⟩ := by
  obtain ⟨c, undo, hc, htip, hundo, hfile⟩ := hb.undo hne ht
  rw [hfile, htip]
  exact disconnectBlock_of_connected keys hb.stored hbip30 hc hundo store

/-- It connects again with every store that has the key images of the chain below. -/
theorem Grown.connectBlock (ht : connectTip rules keys e.1 e.2 b = .ok t)
    (himages : store.images = chainImages rest) :
    ∃ undo, connectBlock rules false e.2 e.1 b.tip store =
      .ok ⟨t.tip, undo, commitBlockKIs e.1.hash e.2.keyImages store⟩ := by
  obtain ⟨c, -, hc, htip, -⟩ := hb.undo hne ht
  have hkis (ki : Point) (_ : ki ∈ e.2.keyImages) :
      ki ∈ b.store.images.members ↔ ki ∈ store.images.members := by
    rw [hb.follow.images, hb.chain_eq, himages]
  have hagain := connectBlock_congr hkis hc
  rw [if_neg hne] at hagain
  exact ⟨c.undo, by rw [htip, hagain]⟩

end Straight

section Runs

variable {rules : Rules} {keys : PubKeys} {blocks : List ActiveBlock} {s s' : Chainstate}
  {e : ActiveBlock} {rest : List ActiveBlock} {t : Chainstate}

/-- The state of a run over some blocks, in terms of the straight connection of its chain. Every
undo record on disk is that of a straight connection, also of blocks that are no longer active. -/
structure Rebuilt (rules : Rules) (keys : PubKeys) (blocks : List ActiveBlock) (s : Chainstate) :
    Prop where
  among : ∀ e ∈ s.chain, e ∈ blocks
  follow : ImagesFollow s
  tip : ∃ t, straight rules keys s.chain = .ok t ∧ t.tip = s.tip
  active : ∀ e ∈ s.chain, e.1.hash ≠ rules.hashGenesisBlock → s.undoFiles e.1.hash ≠ none
  records : ∀ e ∈ blocks, ∀ file, s.undoFiles e.1.hash = some file →
    ∃ rest t, (∀ e' ∈ rest, e' ∈ blocks) ∧ straight rules keys (e :: rest) = .ok t ∧
      t.undoFiles e.1.hash = some file

variable (hgenesis : GenesisPlain rules)
include hgenesis

/-- The undo record of an active block is that of the straight connection up to it. -/
theorem Rebuilt.record (hregular : Regular blocks) (hs : Rebuilt rules keys blocks s)
    (hsuffix : e :: rest <:+ s.chain) (hne : e.1.hash ≠ rules.hashGenesisBlock)
    (ht : straight rules keys (e :: rest) = .ok t) :
    s.undoFiles e.1.hash = t.undoFiles e.1.hash := by
  have hmem (e' : ActiveBlock) (he' : e' ∈ e :: rest) : e' ∈ blocks :=
    hs.among e' (hsuffix.subset he')
  obtain ⟨file, hfile⟩ := ne_none_iff_exists'.mp
    (hs.active e (hsuffix.subset mem_cons_self) hne)
  obtain ⟨rest', t', hrest', ht', hrecord⟩ := hs.records e (hmem e mem_cons_self) file hfile
  have hbelow {chain : List ActiveBlock} {u : Chainstate}
      (hu : straight rules keys (e :: chain) = .ok u) : e.1.ancestors = chainHashes chain := by
    obtain ⟨b, hb, hconnect⟩ := straight_cons.mp hu
    rw [(connectTip_ok hconnect).1, (grown_straight hgenesis hb).chain_eq]
  have heq : rest' = rest := hregular.eq_of_chainHashes hrest'
    (fun e' he' => hmem e' (mem_cons_of_mem _ he')) ((hbelow ht').symm.trans (hbelow ht))
  rw [heq, ht, Except.ok.injEq] at ht'
  rw [hfile, ht', hrecord]

theorem rebuilt_connectTip (hregular : Regular blocks) (he : e ∈ blocks)
    (h : connectTip rules keys e.1 e.2 s = .ok s') (hs : Rebuilt rules keys blocks s) :
    Rebuilt rules keys blocks s' := by
  obtain ⟨t, ht, htip⟩ := hs.tip
  have hgrown := grown_straight hgenesis ht
  obtain ⟨hchain, hanc, -⟩ := connectTip_images hgenesis h
  obtain ⟨c, -, -, hrecord, hothers, hwritten⟩ := connectTip_undo h
  have himages : t.store.images = s.store.images := by
    rw [hs.follow.images, hgrown.follow.images, hgrown.chain_eq]
  obtain ⟨u, hu, hutip, huundo⟩ := connectTip_again h hgrown.chain_eq htip himages
  have hstraight : straight rules keys (e :: s.chain) = .ok u := straight_cons.mpr ⟨t, ht, hu⟩
  refine ⟨?_, imagesFollow_connectTip hgenesis h hs.follow, ⟨u, ?_, hutip⟩, fun e' he' hne => ?_,
    fun e' he' file hfile => ?_⟩
  · exact hchain ▸ forall_mem_cons.mpr ⟨he, hs.among⟩
  · exact hchain ▸ hstraight
  · by_cases heq : e'.1.hash = e.1.hash
    · rw [heq, hrecord, ne_eq, or_eq_none_iff, map_eq_none_iff]
      exact fun hnone => hwritten (heq ▸ hne) hnone.2
    · rw [hothers _ heq]
      rcases mem_cons.mp (hchain ▸ he') with rfl | he'
      · exact absurd rfl heq
      · exact hs.active e' he' hne
  · by_cases heq : e'.1.hash = e.1.hash
    · obtain rfl := hregular.unique e' he' e he heq
      -- a record from an earlier connection stays, and a new one is the straight one
      cases hold : s.undoFiles e'.1.hash with
      | some old =>
        rw [hrecord, hold, some_or] at hfile
        exact hs.records e' he' file (hold.trans hfile)
      | none =>
        have hnone := hgrown.unrecorded e'.1.hash
          (hanc ▸ (nodup_cons.mp e'.1.distinct).1)
        exact ⟨s.chain, u, hs.among, hstraight, (huundo hnone hold).trans hfile⟩
    · rw [hothers _ heq] at hfile
      exact hs.records e' he' file hfile

/-- The tip of a rebuilt state comes off cleanly, whatever store is given. -/
theorem Rebuilt.disconnectBlock (hregular : Regular blocks) (hs : Rebuilt rules keys blocks s)
    (hsuffix : e :: rest <:+ s.chain) (hne : e.1.hash ≠ rules.hashGenesisBlock) {b : Chainstate}
    (hb : straight rules keys rest = .ok b) (ht : connectTip rules keys e.1 e.2 b = .ok t)
    (store : Store) :
    disconnectBlock rules.crypto keys e.2 e.1 (s.undoFiles e.1.hash) t.tip store =
      .ok ⟨true, b.tip, uncommitBlockKIs e.1.hash store⟩ := by
  have hbip30 := hregular.bip30 e (hs.among e (hsuffix.subset mem_cons_self))
  rw [hs.record hgenesis hregular hsuffix hne (straight_cons.mpr ⟨b, hb, ht⟩)]
  exact (grown_straight hgenesis hb).disconnectBlock hne hbip30 ht store

theorem rebuilt_disconnectTip (hregular : Regular blocks) (h : disconnectTip rules keys s = .ok s')
    (hs : Rebuilt rules keys blocks s) : Rebuilt rules keys blocks s' := by
  have hfollow := imagesFollow_disconnectTip h hs.follow
  obtain ⟨pindex, block, rest, d, hchain, hd, -, rfl⟩ := disconnectTip_ok h
  obtain ⟨t, ht, htip⟩ := hs.tip
  rw [hchain] at ht
  obtain ⟨b, hb, hconnect⟩ := straight_cons.mp ht
  have hgrown := grown_straight hgenesis hb
  have hrest : rest ≠ [] := by
    rintro rfl
    obtain ⟨_, prev, below, _, _, _, hprev, -⟩ := disconnectBlock_ok.mp hd
    rw [(connectTip_ok hconnect).1, hgrown.chain_eq] at hprev
    exact cons_ne_nil _ _ hprev.symm
  have hback := hs.disconnectBlock hgenesis hregular (hchain ▸ suffix_rfl)
    (hgrown.ne_genesis hrest hconnect) hb hconnect s.store
  rw [htip, hd, Except.ok.injEq] at hback
  have hsub (e : ActiveBlock) (he : e ∈ rest) : e ∈ s.chain := hchain ▸ mem_cons_of_mem _ he
  exact ⟨fun e he => hs.among e (hsub e he), hfollow, ⟨b, hb, by rw [hback]⟩,
    fun e he => hs.active e (hsub e he), hs.records⟩

theorem Rebuilt.disconnectTip (hregular : Regular blocks) (hs : Rebuilt rules keys blocks s)
    (hchain : s.chain = e :: rest) (hrest : rest ≠ []) :
    ∃ s', disconnectTip rules keys s = .ok s' ∧ s'.chain = rest := by
  obtain ⟨t, ht, htip⟩ := hs.tip
  rw [hchain] at ht
  obtain ⟨b, hb, hconnect⟩ := straight_cons.mp ht
  have hgrown := grown_straight hgenesis hb
  have hanc := (connectTip_ok hconnect).1
  rw [hgrown.chain_eq] at hanc
  have hbest : s.tip.bestBlock = e.1.hash := htip ▸ (connectTip_checked hconnect).2
  have hback := hs.disconnectBlock hgenesis hregular (hchain ▸ suffix_rfl)
    (hgrown.ne_genesis hrest hconnect) hb hconnect s.store
  rw [htip] at hback
  have hok : ¬ (e.1.ancestors = [] ∨ s.tip.bestBlock ≠ e.1.hash) := by
    simpa [hanc, chainHashes, hbest] using hrest
  refine ⟨⟨rest, b.tip, uncommitBlockKIs e.1.hash s.store, s.undoFiles⟩, ?_, rfl⟩
  simp only [ActiveChain.disconnectTip, hchain, rejectIf, if_neg hok, hback]
  rfl

theorem rebuilt_run (hempty : store.images = .empty)
    (hregular : Regular (connectedBlocks steps))
    (h : run (tipStep rules keys) (emptyChain store) steps = .ok s) :
    Rebuilt rules keys (connectedBlocks steps) s := by
  have hsteps : AlwaysOk (tipStep rules keys) (fun _ a => ∀ pindexNew block,
      a = .connect pindexNew block → (pindexNew, block) ∈ connectedBlocks steps)
      (emptyChain store) steps := by
    refine alwaysOk_of_forall (fun a ha _ pindexNew block heq => ?_) _
    exact mem_filterMap.mpr ⟨a, ha, by rw [heq]⟩
  refine hsteps.invariant (Rebuilt rules keys (connectedBlocks steps))
    (fun t a t' ha hstep ht => ?_) h ?_
  · rcases tipStep_cases hstep with ⟨pindexNew, block, rfl, hc⟩ | ⟨rfl, hd⟩
    · exact rebuilt_connectTip hgenesis hregular (e := (pindexNew, block))
        (ha pindexNew block rfl) hc ht
    · exact rebuilt_disconnectTip hgenesis hregular hd ht
  · exact ⟨by simp [emptyChain], ⟨hempty, trivial⟩, ⟨_, rfl, rfl⟩, by simp [emptyChain],
      fun _ _ _ hfile => by simp [emptyChain] at hfile⟩

/-- Coins, best block and key images are a function of the active chain: every run that ends with
the chain has those of connecting its blocks one after the other. -/
theorem state_of_active_chain (hempty : store.images = .empty)
    (hregular : Regular (connectedBlocks steps))
    (h : run (tipStep rules keys) (emptyChain store) steps = .ok s) :
    ∃ t, straight rules keys s.chain = .ok t ∧ t.tip = s.tip ∧
      t.store.images = s.store.images := by
  have hs := rebuilt_run hgenesis hempty hregular h
  obtain ⟨t, ht, htip⟩ := hs.tip
  have hgrown := grown_straight hgenesis ht
  exact ⟨t, ht, htip, by rw [hgrown.follow.images, hgrown.chain_eq, hs.follow.images]⟩

/-- In every state that a run reaches, a block connected above the genesis block comes off again
cleanly, and chain, coins, best block and key images are those from before. -/
theorem disconnectTip_connectTip (hempty : store.images = .empty)
    (h : run (tipStep rules keys) (emptyChain store) steps = .ok s) (habove : s.chain ≠ [])
    {pindexNew : BlockIndex} {block : Block}
    (hregular : Regular (connectedBlocks (steps ++ [.connect pindexNew block])))
    (hc : connectTip rules keys pindexNew block s = .ok s') :
    ∃ s'', disconnectTip rules keys s' = .ok s'' ∧ s''.chain = s.chain ∧ s''.tip = s.tip ∧
      s''.store.images = s.store.images := by
  have hrun : run (tipStep rules keys) (emptyChain store) (steps ++ [.connect pindexNew block]) =
      .ok s' := by
    refine run_append.mpr ⟨s, h, ?_⟩
    rw [run, bind_ok]
    exact ⟨s', mapError_ok.mpr hc, rfl⟩
  have hs' := rebuilt_run hgenesis hempty hregular hrun
  obtain ⟨hchain, -⟩ := connectTip_images hgenesis hc
  obtain ⟨s'', hd, hchain''⟩ := hs'.disconnectTip hgenesis hregular hchain habove
  -- both states are those of the straight connection of one chain
  have hs'' := rebuilt_disconnectTip hgenesis hregular hd hs'
  have hs := rebuilt_run hgenesis hempty (hregular.mono fun e he => by
    rw [connectedBlocks, filterMap_append]
    exact mem_append_left _ he) h
  obtain ⟨t, ht, htip⟩ := hs.tip
  obtain ⟨t'', ht'', htip''⟩ := hs''.tip
  rw [hchain'', ht, Except.ok.injEq] at ht''
  exact ⟨s'', hd, hchain'', by rw [← htip'', ← ht'', htip],
    by rw [hs''.follow.images, hs.follow.images, hchain'']⟩

end Runs

end Pricoin.Reorganizations
