import Mathlib.Data.List.Pairwise
import Pricoin.ActiveChain

/-!
The start of a node. The key-image store is loaded from its file, buckets of blocks
that the durable coins do not reflect are dropped, the stored blocks above the coins
are connected, and then the store is pruned and rebuilt from the active chain. Whether
blocks are judged rightly in between depends on what the file says about the durable
chain.
-/
namespace Pricoin.StartUp

open ByteStreams Checks Runs TaggedSets KeyImageFile KeyImageStore Transactions Coins TxChecks List
open BlockConnection UndoCodec BlockDisconnection ConnectDisconnect ActiveChain

variable {file : StoreFile} {store : Store} {images : KeyImages} {k : BlockHash} {block : Block}
  {s s' : Chainstate} {pindex : BlockIndex} {durable : List ActiveBlock}

section Files

/-- A store file, or none. A legacy file has no tags. -/
inductive StoreFile where
  | absent
  | legacy (kis : List Point)
  | v2 (es : List (BlockHash × List Point))

namespace StoreFile

def bytes : StoreFile → Option (List UInt8)
  | .absent => none
  | .legacy kis => some (imageBytes kis)
  | .v2 es => some (kKIFileMagic ++ writeEntries es)

/-- What the file says, with the null hash as the tag of a legacy file. -/
def entries : StoreFile → List (BlockHash × List Point)
  | .absent => []
  | .legacy kis => [(nullHash, kis)]
  | .v2 es => es

/-- The format can be told from the first bytes, no entry is refused for its size, and the
entry of a stored block has key images of that block only. -/
def WellFormed (disk : BlockHash → Option Block) : StoreFile → Prop
  | .absent => True
  | .legacy kis => (imageBytes kis).take 4 ≠ kKIFileMagic
  | .v2 es => ∀ e ∈ es, e.2.length ≤ maxEntryImages ∧
      ∀ block, disk e.1 = some block → e.2 ⊆ block.keyImages

end StoreFile

theorem loadLegacy_imageBytes (fuel : ℕ) (kis : List Point) (store : KeyImages)
    (h : kis.length ≤ fuel) :
    loadLegacy fuel (imageBytes kis) store =
      kis.foldl (fun t ki => t.insertInto nullHash ki) store := by
  induction kis generalizing fuel store with
  | nil =>
    have hshort : readBytes kKISize (imageBytes []) = none := readBytes_eq_none (by decide)
    cases fuel with
    | zero => rfl
    | succ fuel =>
      rw [loadLegacy, hshort]
      rfl
  | cons ki kis ih =>
    obtain ⟨fuel, rfl⟩ := Nat.exists_eq_succ_of_ne_zero (Nat.ne_of_gt (Nat.lt_of_lt_of_le
      (Nat.succ_pos _) h))
    have hread : readBytes kKISize (imageBytes (ki :: kis)) = some (ki, imageBytes kis) :=
      readBytes_append ki (imageBytes kis)
    rw [loadLegacy, hread]
    exact ih fuel _ (Nat.le_of_succ_le_succ h)

/-- Opening a well-formed file loads its entries in order. -/
theorem images_initKeyImageStore {disk : BlockHash → Option Block} (h : file.WellFormed disk) :
    (initKeyImageStore false (newProcess file.bytes)).images =
      (.empty : KeyImages).loadAll file.entries := by
  cases file with
  | absent => rfl
  | legacy kis =>
    have hlen : kis.length ≤ (imageBytes kis).length := by
      rw [imageBytes_length]
      exact Nat.le_mul_of_pos_left _ (by decide)
    simp only [initKeyImageStore, newProcess, StoreFile.bytes, Bool.false_eq_true, if_false,
      if_neg h, rewriteFile_images, loadLegacy_imageBytes _ _ _ hlen]
    rfl
  | v2 es =>
    have hload := loadV2_writeEntries es [] .empty (fun e he => (h e he).1)
    rw [append_nil] at hload
    simp only [initKeyImageStore, newProcess, StoreFile.bytes, Bool.false_eq_true, if_false]
    have htake : (kKIFileMagic ++ writeEntries es).take 4 = kKIFileMagic := take_left' rfl
    have hdrop : (kKIFileMagic ++ writeEntries es).drop 4 = writeEntries es := drop_left' rfl
    rw [if_pos htake, hdrop]
    exact hload

end Files

section Sequence

inductive Attempt where
  | connect (pindex : BlockIndex)
  | disconnect

/-- The untagged bucket is kept, and without durable coins everything is. -/
def keptBeforeActivation (durable : List ActiveBlock) (blockHash : BlockHash) : Bool :=
  durable.isEmpty || decide (blockHash = nullHash) || decide (blockHash ∈ chainHashes durable)

def inActiveChain (chain : List ActiveBlock) (blockHash : BlockHash) : Bool :=
  decide (blockHash ∈ chainHashes chain)

/-- Commit the key images of the active blocks again, from the genesis block on. -/
def rebuildKeyImages (chain : List ActiveBlock) (store : Store) : Store :=
  chain.reverse.foldl (fun store e => commitBlockKIs e.1.hash e.2.keyImages store) store

variable (rules : Rules) (keys : PubKeys) (disk : BlockHash → Option Block)

/-- A step of `ActivateBestChain` over blocks above the durable ones. A block that cannot be
connected leaves the tip where it is. -/
def attempt (durable : List ActiveBlock) (s : Chainstate) : Attempt → Chainstate
  | .connect pindex =>
    match disk pindex.hash with
    | none => s
    | some block =>
      match connectTip rules keys pindex block s with
      | .ok s' => s'
      | .error _ => s
  | .disconnect =>
    if s.chain.length ≤ durable.length then s
    else match disconnectTip rules keys s with
      | .ok s' => s'
      | .error _ => s

/-- The durable chainstate with the store that was loaded and pruned. -/
def opened (durable : Chainstate) (file : StoreFile) : Chainstate :=
  let store := initKeyImageStore false (newProcess file.bytes)
  { durable with store := pruneOrphanedKeyImages (keptBeforeActivation durable.chain) store }

def activated (durable : Chainstate) (file : StoreFile) (attempts : List Attempt) : Chainstate :=
  attempts.foldl (attempt rules keys disk durable.chain) (opened durable file)

/-- Prune and rebuild the store by the active chain. -/
def selfHeal (s : Chainstate) : Chainstate :=
  let store := pruneOrphanedKeyImages (inActiveChain s.chain) s.store
  { s with store := rebuildKeyImages s.chain store }

def startUp (durable : Chainstate) (file : StoreFile) (attempts : List Attempt) : Chainstate :=
  selfHeal (activated rules keys disk durable file attempts)

/-- The chainstate with the store of its own chain. -/
def withOwnStore (s : Chainstate) : Chainstate :=
  { s with store := { s.store with images := chainImages s.chain } }

/-- A stored block is connected when it is valid on its ancestors and only then, and what is
connected repeats no key image of an ancestor. -/
def Judged (s : Chainstate) : Attempt → Prop
  | .connect pindex => ∀ block, disk pindex.hash = some block →
      ((∃ s', connectTip rules keys pindex block s = .ok s') ↔
        ∃ s', connectTip rules keys pindex block (withOwnStore s) = .ok s') ∧
      ((∃ s', connectTip rules keys pindex block s = .ok s') →
        ∀ ki ∈ block.keyImages, ki ∉ chainKeyImages s.chain)
  | .disconnect => True

/-- The store is that of the active chain. -/
structure Healed (s : Chainstate) : Prop where
  members : ∀ ki, ki ∈ s.store.images.members ↔ ki ∈ chainKeyImages s.chain
  buckets : ∀ e ∈ s.chain, ∀ ki, ki ∈ s.store.images.bucket e.1.hash ↔ ki ∈ e.2.keyImages
  noOthers : ∀ blockHash, blockHash ∉ chainHashes s.chain → s.store.images.bucket blockHash = []
  nodup : ∀ blockHash, (s.store.images.bucket blockHash).Nodup

end Sequence

section Prunes

theorem bucket_prune (isInActiveChain : BlockHash → Bool) (store : Store) (k : BlockHash) :
    (pruneOrphanedKeyImages isInActiveChain store).images.bucket k =
      if isInActiveChain k then store.images.bucket k else [] := by
  rw [pruneOrphanedKeyImages_images, TaggedSet.bucket_dropBuckets]
  by_cases hkeep : isInActiveChain k = true
  · have hnot : k ∉ orphans isInActiveChain store := by
      rw [orphans, mem_filter]
      simp [hkeep]
    rw [if_neg hnot, if_pos hkeep]
  · rw [if_neg hkeep]
    split
    · rfl
    · rename_i hnot
      have hnone : k ∉ store.images.buckets := by
        intro hmem
        refine hnot (mem_filter.mpr ⟨Std.ExtTreeMap.mem_keys.mpr hmem, ?_⟩)
        simpa using hkeep
      rw [TaggedSet.bucket, Std.ExtTreeMap.getElem?_eq_none hnone]
      rfl

theorem wellFormed_prune {isInActiveChain : BlockHash → Bool} (h : store.images.WellFormed) :
    (pruneOrphanedKeyImages isInActiveChain store).images.WellFormed := by
  rw [pruneOrphanedKeyImages_images]
  exact h.dropBuckets _

theorem uncommitBlockKIs_images_eq (blockHash : BlockHash) (store : Store) :
    (uncommitBlockKIs blockHash store).images = store.images.dropBucket blockHash := by
  rw [uncommitBlockKIs_images]
  split
  · rfl
  · rename_i hnot
    exact (TaggedSet.dropBucket_of_notMem hnot).symm

end Prunes

section Owned

variable {disk : BlockHash → Option Block}

/-- The bucket of a stored block has key images of that block only. -/
structure Owned (disk : BlockHash → Option Block) (images : KeyImages) : Prop where
  wf : images.WellFormed
  own : ∀ k block, disk k = some block → ∀ ki ∈ images.bucket k, ki ∈ block.keyImages

theorem Owned.addAll (h : Owned disk images) {kis : List Point}
    (hkis : ∀ block, disk k = some block → kis ⊆ block.keyImages) :
    Owned disk (images.addAll k kis) where
  wf := h.wf.addAll k kis
  own := by
    intro k' block hblock ki hki
    rw [TaggedSet.bucket_addAll] at hki
    split at hki
    · rename_i heq
      subst heq
      rcases mem_append.mp hki with hold | hnew
      · exact h.own k block hblock ki hold
      · exact hkis block hblock (mem_newlyAdded.mp hnew).1
    · exact h.own k' block hblock ki hki

theorem Owned.loadAll (h : Owned disk images) {es : List (BlockHash × List Point)}
    (hes : ∀ e ∈ es, ∀ block, disk e.1 = some block → e.2 ⊆ block.keyImages) :
    Owned disk (images.loadAll es) := by
  induction es generalizing images with
  | nil => exact h
  | cons e es ih =>
    exact ih (h.addAll (hes e mem_cons_self)) fun e' he' => hes e' (mem_cons_of_mem _ he')

theorem Owned.of_buckets {images' : KeyImages} (h : Owned disk images) (hwf : images'.WellFormed)
    (hsub : ∀ k, images'.bucket k ⊆ images.bucket k) : Owned disk images' :=
  ⟨hwf, fun k block hblock ki hki => h.own k block hblock ki (hsub k hki)⟩

theorem owned_empty : Owned disk (.empty : KeyImages) where
  wf := TaggedSet.empty_wellFormed
  own := by
    intro k block _ ki hki
    rw [TaggedSet.bucket_empty] at hki
    simp at hki

theorem Owned.prune (h : Owned disk store.images) (isInActiveChain : BlockHash → Bool) :
    Owned disk (pruneOrphanedKeyImages isInActiveChain store).images := by
  refine h.of_buckets (wellFormed_prune h.wf) fun k => ?_
  rw [bucket_prune]
  split
  · exact List.Subset.refl _
  · exact nil_subset _

theorem Owned.dropBucket (h : Owned disk images) (k : BlockHash) :
    Owned disk (images.dropBucket k) := by
  refine h.of_buckets (h.wf.dropBucket k) fun k' => ?_
  rw [TaggedSet.bucket_dropBucket]
  split
  · exact nil_subset _
  · exact List.Subset.refl _

theorem owned_opened (hnull : disk nullHash = none) (hfile : file.WellFormed disk)
    (durable : Chainstate) : Owned disk (opened durable file).store.images := by
  have hloaded : Owned disk (initKeyImageStore false (newProcess file.bytes)).images := by
    rw [images_initKeyImageStore hfile]
    refine owned_empty.loadAll ?_
    cases file with
    | absent => simp [StoreFile.entries]
    | legacy kis =>
      intro e he block hblock
      obtain rfl := mem_singleton.mp he
      rw [hnull] at hblock
      contradiction
    | v2 es => exact fun e he => (hfile e he).2
  exact hloaded.prune _

theorem Owned.commit (h : Owned disk store.images) (hblock : disk k = some block) :
    Owned disk (commitBlockKIs k block.keyImages store).images := by
  rw [commitBlockKIs_images]
  split
  · exact h
  · refine h.addAll fun block' hblock' => ?_
    obtain rfl := Option.some.inj (hblock.symm.trans hblock')
    exact List.Subset.refl _

end Owned

section Healing

variable {disk : BlockHash → Option Block}

def OnDisk (disk : BlockHash → Option Block) (chain : List ActiveBlock) : Prop :=
  ∀ e ∈ chain, disk e.1.hash = some e.2

theorem owned_commits {blocks : List ActiveBlock} (h : Owned disk store.images)
    (hdisk : OnDisk disk blocks) :
    Owned disk (blocks.foldl (fun store e => commitBlockKIs e.1.hash e.2.keyImages store)
      store).images := by
  induction blocks generalizing store with
  | nil => exact h
  | cons e blocks ih =>
    exact ih (h.commit (hdisk e mem_cons_self)) fun e' he' =>
      hdisk e' (mem_cons_of_mem _ he')

theorem members_commits (blocks : List ActiveBlock) (store : Store) (ki : Point) :
    ki ∈ (blocks.foldl (fun store e => commitBlockKIs e.1.hash e.2.keyImages store)
      store).images.members ↔ ki ∈ store.images.members ∨ ki ∈ chainKeyImages blocks := by
  induction blocks generalizing store with
  | nil => simp [chainKeyImages]
  | cons e blocks ih =>
    have hcons : chainKeyImages (e :: blocks) = e.2.keyImages ++ chainKeyImages blocks :=
      flatMap_cons
    rw [foldl_cons, ih, members_commitBlockKIs, hcons, mem_append, or_assoc]

theorem bucket_commits {blocks : List ActiveBlock} (hk : k ∉ chainHashes blocks) (store : Store) :
    (blocks.foldl (fun store e => commitBlockKIs e.1.hash e.2.keyImages store)
      store).images.bucket k = store.images.bucket k := by
  induction blocks generalizing store with
  | nil => rfl
  | cons e blocks ih =>
    rw [chainHashes, map_cons, mem_cons, not_or, ← chainHashes] at hk
    rw [foldl_cons, ih hk.2, commitBlockKIs_images]
    split
    · rfl
    · rw [TaggedSet.bucket_addAll, if_neg (Ne.symm hk.1)]

theorem mem_chainKeyImages {chain : List ActiveBlock} {ki : Point} :
    ki ∈ chainKeyImages chain ↔ ∃ e ∈ chain, ki ∈ e.2.keyImages := by
  rw [chainKeyImages, mem_flatMap]

/-- Where no key image occurs twice, the block that has it is known. -/
theorem block_unique {chain : List ActiveBlock} (hnd : (chainKeyImages chain).Nodup)
    {e e' : ActiveBlock} (he : e ∈ chain) (he' : e' ∈ chain) {ki : Point}
    (hki : ki ∈ e.2.keyImages) (hki' : ki ∈ e'.2.keyImages) : e = e' := by
  by_contra hne
  have hsymm : Std.Symm (Function.onFun List.Disjoint fun e : ActiveBlock => e.2.keyImages) :=
    ⟨fun _ _ h => h.symm⟩
  exact (nodup_flatMap.mp hnd).2.forall he he' hne hki hki'

/-- Pruning and rebuilding leave exactly the key images of the active chain, and where none of
them occurs twice each is in the bucket of its block. -/
theorem healed_selfHeal (howned : Owned disk s.store.images) (hdisk : OnDisk disk s.chain) :
    (∀ ki, ki ∈ (selfHeal s).store.images.members ↔ ki ∈ chainKeyImages s.chain) ∧
    ((chainKeyImages s.chain).Nodup → Healed (selfHeal s)) := by
  have hstore : (selfHeal s).store = rebuildKeyImages s.chain
    (pruneOrphanedKeyImages (inActiveChain s.chain) s.store) := rfl
  have hpruned := howned.prune (inActiveChain s.chain)
  have hrebuilt : Owned disk (selfHeal s).store.images := by
    rw [hstore]
    exact owned_commits hpruned fun e he => hdisk e (mem_reverse.mp he)
  have hnone : ∀ k, k ∉ chainHashes s.chain → (selfHeal s).store.images.bucket k = [] := by
    intro k hk
    have hreverse : k ∉ chainHashes s.chain.reverse := by
      rwa [chainHashes, map_reverse, mem_reverse]
    rw [hstore, rebuildKeyImages, bucket_commits hreverse, bucket_prune, inActiveChain,
      if_neg (by simpa using hk)]
  -- a member lies in the bucket of an active block, and is one of its key images
  have hblock : ∀ ki ∈ (selfHeal s).store.images.members, ∃ e ∈ s.chain,
      ki ∈ (selfHeal s).store.images.bucket e.1.hash ∧ ki ∈ e.2.keyImages := by
    intro ki hki
    obtain ⟨k, hk⟩ := (hrebuilt.wf.covered ki).mp hki
    by_cases hmem : k ∈ chainHashes s.chain
    · obtain ⟨e, he, rfl⟩ := mem_map.mp hmem
      exact ⟨e, he, hk, hrebuilt.own _ _ (hdisk e he) ki hk⟩
    · rw [hnone k hmem] at hk
      simp at hk
  have hmembers : ∀ ki, ki ∈ (selfHeal s).store.images.members ↔ ki ∈ chainKeyImages s.chain := by
    intro ki
    constructor
    · intro hki
      obtain ⟨e, he, -, hki⟩ := hblock ki hki
      exact mem_chainKeyImages.mpr ⟨e, he, hki⟩
    · intro hki
      obtain ⟨e, he, hki⟩ := mem_chainKeyImages.mp hki
      rw [hstore, rebuildKeyImages, members_commits]
      exact .inr (mem_chainKeyImages.mpr ⟨e, mem_reverse.mpr he, hki⟩)
  refine ⟨hmembers, fun hnd => ⟨hmembers, fun e he ki => ?_, hnone,
    hrebuilt.wf.nodup⟩⟩
  constructor
  · exact fun hki => hrebuilt.own _ _ (hdisk e he) ki hki
  · intro hki
    obtain ⟨e', he', hbucket, hki'⟩ := hblock ki ((hmembers ki).mpr
      (mem_chainKeyImages.mpr ⟨e, he, hki⟩))
    obtain rfl := block_unique hnd he he' hki hki'
    exact hbucket

end Healing

section Activation

variable {rules : Rules} {keys : PubKeys} {disk : BlockHash → Option Block} {used : Point → Prop}

theorem attempt_cases (rules : Rules) (keys : PubKeys) (disk : BlockHash → Option Block)
    (durable : List ActiveBlock) (s : Chainstate) (a : Attempt) :
    attempt rules keys disk durable s a = s ∨
    (∃ pindex block, a = .connect pindex ∧ disk pindex.hash = some block ∧
      connectTip rules keys pindex block s = .ok (attempt rules keys disk durable s a)) ∨
    (durable.length < s.chain.length ∧
      disconnectTip rules keys s = .ok (attempt rules keys disk durable s a)) := by
  cases a with
  | connect pindex =>
    simp only [attempt]
    split
    · exact .inl rfl
    · rename_i block hblock
      split
      · rename_i s' hconnect
        exact .inr (.inl ⟨pindex, block, rfl, hblock, hconnect⟩)
      · exact .inl rfl
  | disconnect =>
    simp only [attempt]
    split
    · exact .inl rfl
    · rename_i hlong
      split
      · rename_i s' hdisconnect
        exact .inr (.inr ⟨not_le.mp hlong, hdisconnect⟩)
      · exact .inl rfl

theorem disconnectTip_images (h : disconnectTip rules keys s = .ok s') :
    ∃ e, s.chain = e :: s'.chain ∧ s'.store.images = s.store.images.dropBucket e.1.hash := by
  obtain ⟨pindex, block, rest, d, hchain, hd, -, rfl⟩ := disconnectTip_ok h
  obtain ⟨-, -, -, -, -, -, -, -, -, -, rfl⟩ := disconnectBlock_ok.mp hd
  exact ⟨(pindex, block), hchain, uncommitBlockKIs_images_eq pindex.hash s.store⟩

/-- Whether a block is connected depends on which of its key images are committed. -/
theorem connectTip_congr {t : Chainstate} (hchain : s.chain = t.chain) (htip : s.tip = t.tip)
    (hmembers : ∀ ki ∈ block.keyImages,
      ki ∈ s.store.images.members ↔ ki ∈ t.store.images.members)
    (h : connectTip rules keys pindex block s = .ok s') :
    ∃ t', connectTip rules keys pindex block t = .ok t' := by
  obtain ⟨hanc, c, hc, -⟩ := connectTip_ok h
  have hc' := connectBlock_congr hmembers hc
  rw [htip] at hc'
  rw [hchain] at hanc
  rw [connectTip, rejectIf, if_neg (not_not.mpr hanc), hc']
  exact ⟨_, rfl⟩

/-- What holds of the store whatever the file said. -/
structure Based (disk : BlockHash → Option Block) (s : Chainstate) : Prop where
  owned : Owned disk s.store.images
  onDisk : OnDisk disk s.chain

theorem based_attempt (hgenesis : GenesisPlain rules) (h : Based disk s) (a : Attempt) :
    Based disk (attempt rules keys disk durable s a) := by
  rcases attempt_cases rules keys disk durable s a with
    heq | ⟨pindex, block, -, hblock, hconnect⟩ | ⟨-, hdisconnect⟩
  · rwa [heq]
  · obtain ⟨hchain, -, himages, -, -⟩ := connectTip_images hgenesis hconnect
    refine ⟨?_, ?_⟩
    · rw [himages, ← commitBlockKIs_images]
      exact h.owned.commit hblock
    · rw [OnDisk, hchain, forall_mem_cons]
      exact ⟨hblock, h.onDisk⟩
  · obtain ⟨e, hchain, himages⟩ := disconnectTip_images hdisconnect
    refine ⟨?_, fun e' he' => h.onDisk e' (hchain ▸ mem_cons_of_mem e he')⟩
    rw [himages]
    exact h.owned.dropBucket _

/-- The key image is one of a stored block that the attempts try to connect. -/
def Used (disk : BlockHash → Option Block) (attempts : List Attempt) (ki : Point) : Prop :=
  ∃ pindex block, .connect pindex ∈ attempts ∧ disk pindex.hash = some block ∧
    ki ∈ block.keyImages

/-- The chain is one on top of the durable chain, and of the key images that matter the store has
those of the chain. Only the blocks above need to have buckets of their own. -/
structure Tracks (disk : BlockHash → Option Block) (used : Point → Prop)
    (durable : List ActiveBlock) (s : Chainstate) : Prop where
  based : Based disk s
  sound : ChainSound s.chain
  members : ∀ ki, used ki → (ki ∈ s.store.images.members ↔ ki ∈ chainKeyImages s.chain)
  above : ∃ top, s.chain = top ++ durable ∧
    ∀ e ∈ top, ∀ ki ∈ e.2.keyImages, ki ∈ s.store.images.bucket e.1.hash

theorem Tracks.judged (h : Tracks disk used durable s) (hgenesis : GenesisPlain rules)
    {a : Attempt} (hused : ∀ ki, Used disk [a] ki → used ki) : Judged rules keys disk s a := by
  cases a with
  | disconnect => trivial
  | connect pindex =>
    intro block hblock
    have hmembers : ∀ ki ∈ block.keyImages,
        ki ∈ s.store.images.members ↔ ki ∈ chainKeyImages s.chain := fun ki hki =>
      h.members ki (hused ki ⟨pindex, block, mem_cons_self, hblock, hki⟩)
    have hown : ∀ ki ∈ block.keyImages,
        ki ∈ s.store.images.members ↔ ki ∈ (withOwnStore s).store.images.members := fun ki hki =>
      (hmembers ki hki).trans mem_members_chainImages.symm
    refine ⟨⟨?_, ?_⟩, ?_⟩
    · rintro ⟨s', hs'⟩
      exact connectTip_congr (s := s) (t := withOwnStore s) rfl rfl hown hs'
    · rintro ⟨s', hs'⟩
      exact connectTip_congr (s := withOwnStore s) (t := s) rfl rfl
        (fun ki hki => (hown ki hki).symm) hs'
    · rintro ⟨s', hs'⟩ ki hki hold
      obtain ⟨-, -, -, -, hfresh⟩ := connectTip_images hgenesis hs'
      exact hfresh ki hki ((hmembers ki hki).mpr hold)

theorem tracks_connectTip (hgenesis : GenesisPlain rules) (hbased : Based disk s')
    (hconnect : connectTip rules keys pindex block s = .ok s')
    (hused : ∀ ki ∈ block.keyImages, used ki) (h : Tracks disk used durable s) :
    Tracks disk used durable s' := by
  obtain ⟨hchain, hanc, himages, hnd, hfresh⟩ := connectTip_images hgenesis hconnect
  have hsound : ChainSound s'.chain := by
    rw [hchain]
    refine ⟨hanc, hnd, fun ki hki hold => ?_, h.sound⟩
    exact hfresh ki hki ((h.members ki (hused ki hki)).mpr (mem_members_chainImages.mp hold))
  have hbucket : ∀ k, s'.store.images.bucket k =
      if pindex.hash = k then s.store.images.bucket k ++ block.keyImages
      else s.store.images.bucket k := by
    intro k
    rw [himages]
    by_cases hnone : block.keyImages = []
    · rw [if_pos hnone, hnone, append_nil, ite_self]
    · rw [if_neg hnone, TaggedSet.bucket_addAll, newlyAdded_of_fresh hnd hfresh]
      split
      · rename_i heq
        rw [heq]
      · rfl
  refine ⟨hbased, hsound, fun ki hki => ?_, ?_⟩
  · have hcons : ki ∈ chainKeyImages s'.chain ↔
        ki ∈ block.keyImages ∨ ki ∈ chainKeyImages s.chain := by
      rw [hchain, chainKeyImages, flatMap_cons, mem_append, ← chainKeyImages]
    rw [himages, ← commitBlockKIs_images, members_commitBlockKIs, h.members ki hki, hcons, or_comm]
  · obtain ⟨top, htop, habove⟩ := h.above
    refine ⟨(pindex, block) :: top, by rw [hchain, htop, cons_append], ?_⟩
    rw [forall_mem_cons]
    refine ⟨fun ki hki => ?_, fun e he ki hki => ?_⟩
    · rw [hbucket, if_pos rfl]
      exact mem_append_right _ hki
    · rw [hbucket]
      split
      · exact mem_append_left _ (habove e he ki hki)
      · exact habove e he ki hki

theorem tracks_disconnectTip (hlong : durable.length < s.chain.length) (hbased : Based disk s')
    (hdisconnect : disconnectTip rules keys s = .ok s') (h : Tracks disk used durable s) :
    Tracks disk used durable s' := by
  obtain ⟨e, hchain, himages⟩ := disconnectTip_images hdisconnect
  obtain ⟨top, htop, habove⟩ := h.above
  obtain ⟨e', top, rfl⟩ : ∃ e' top', top = e' :: top' := by
    refine exists_cons_of_ne_nil fun hnil => ?_
    rw [htop, hnil, nil_append] at hlong
    exact lt_irrefl _ hlong
  rw [hchain, cons_append, cons.injEq] at htop
  obtain ⟨rfl, hrest⟩ := htop
  have hsound := h.sound
  rw [hchain] at hsound
  have hhash : e.1.hash ∉ chainHashes s'.chain := hsound.hash_notMem
  -- the bucket of the block is exactly what it brought
  have hown : ∀ ki, ki ∈ s.store.images.bucket e.1.hash ↔ ki ∈ e.2.keyImages := fun ki =>
    ⟨h.based.owned.own _ _ (h.based.onDisk e (hchain ▸ mem_cons_self)) ki,
      habove e mem_cons_self ki⟩
  refine ⟨hbased, hsound.2.2.2, fun ki hki => ?_, ?_⟩
  · have hold : ki ∈ s.store.images.members ↔
        ki ∈ e.2.keyImages ∨ ki ∈ chainKeyImages s'.chain := by
      rw [h.members ki hki, hchain, chainKeyImages, flatMap_cons, mem_append,
        ← chainKeyImages]
    have hfresh := hsound.2.2.1 ki
    rw [mem_members_chainImages] at hfresh
    rw [himages, TaggedSet.dropBucket, Finset.mem_sdiff, mem_toFinset, hown, hold]
    tauto
  · refine ⟨top, hrest, fun t ht ki hki => ?_⟩
    have hne : e.1.hash ≠ t.1.hash := by
      intro heq
      refine hhash ?_
      rw [hrest, heq]
      exact mem_map_of_mem (mem_append_left _ ht)
    rw [himages, TaggedSet.bucket_dropBucket, if_neg hne]
    exact habove t (mem_cons_of_mem _ ht) ki hki

theorem tracks_attempt (hgenesis : GenesisPlain rules) (h : Tracks disk used durable s)
    {a : Attempt} (hused : ∀ ki, Used disk [a] ki → used ki) :
    Tracks disk used durable (attempt rules keys disk durable s a) := by
  have hbased : Based disk (attempt rules keys disk durable s a) :=
    based_attempt hgenesis h.based a
  rcases attempt_cases rules keys disk durable s a with
    heq | ⟨pindex, block, rfl, hblock, hconnect⟩ | ⟨hlong, hdisconnect⟩
  · rwa [heq]
  · exact tracks_connectTip hgenesis hbased hconnect
      (fun ki hki => hused ki ⟨pindex, block, mem_cons_self, hblock, hki⟩) h
  · exact tracks_disconnectTip hlong hbased hdisconnect h

end Activation

section Soundness

variable {rules : Rules} {keys : PubKeys} {disk : BlockHash → Option Block}

/-- Of the key images that the attempted blocks use, the file has exactly those of the durable
chain outside the buckets that are dropped. -/
def Intact (disk : BlockHash → Option Block) (durable : List ActiveBlock) (file : StoreFile)
    (attempts : List Attempt) : Prop :=
  ∀ ki, Used disk attempts ki →
    ((∃ k, TaggedSet.filedUnder file.entries ki = some k ∧
      keptBeforeActivation durable k = true) ↔ ki ∈ chainKeyImages durable)

theorem mem_opened {durable : Chainstate} (hnull : disk nullHash = none)
    (hfile : file.WellFormed disk) (ki : Point) :
    ki ∈ (opened durable file).store.images.members ↔
      ∃ k, TaggedSet.filedUnder file.entries ki = some k ∧
        keptBeforeActivation durable.chain k = true := by
  rw [(owned_opened hnull hfile durable).wf.covered]
  refine exists_congr fun k => ?_
  rw [opened, bucket_prune, images_initKeyImageStore hfile]
  split
  · rename_i hkept
    rw [TaggedSet.mem_bucket_loadAll_iff, TaggedSet.bucket_empty]
    simp [hkept, TaggedSet.empty]
  · rename_i hdropped
    simp [hdropped]

theorem tracks_opened {durable : Chainstate} {attempts : List Attempt}
    (hnull : disk nullHash = none) (hsound : ChainSound durable.chain)
    (hdisk : OnDisk disk durable.chain) (hfile : file.WellFormed disk)
    (hintact : Intact disk durable.chain file attempts) :
    Tracks disk (Used disk attempts) durable.chain (opened durable file) where
  based := ⟨owned_opened hnull hfile durable, hdisk⟩
  sound := hsound
  members ki hki := (mem_opened hnull hfile ki).trans (hintact ki hki)
  above := ⟨[], rfl, by simp⟩

/-- Every start ends with the committed set of the active chain, whatever the file left out. -/
theorem members_startUp (hgenesis : GenesisPlain rules) (hnull : disk nullHash = none)
    {durable : Chainstate} (hdisk : OnDisk disk durable.chain) {file : StoreFile}
    (hfile : file.WellFormed disk) (attempts : List Attempt) :
    ∀ ki, ki ∈ (startUp rules keys disk durable file attempts).store.images.members ↔
      ki ∈ chainKeyImages (startUp rules keys disk durable file attempts).chain := by
  have hbased : Based disk (activated rules keys disk durable file attempts) := by
    refine List.foldlRecOn attempts _ ⟨owned_opened hnull hfile durable, hdisk⟩ ?_
    exact fun s hs a _ => based_attempt hgenesis hs a
  exact (healed_selfHeal hbased.owned hbased.onDisk).1

/-- When the file is intact as to the blocks that are attempted, every one of them is judged as on
its ancestors, and the store ends as that of the active chain. -/
theorem startUp_of_intact (hgenesis : GenesisPlain rules) (hnull : disk nullHash = none)
    {durable : Chainstate} (hsound : ChainSound durable.chain)
    (hdisk : OnDisk disk durable.chain) {file : StoreFile} (hfile : file.WellFormed disk)
    {attempts : List Attempt} (hintact : Intact disk durable.chain file attempts) :
    Always (attempt rules keys disk durable.chain) (Judged rules keys disk)
      (opened durable file) attempts ∧
    Healed (startUp rules keys disk durable file attempts) := by
  have hopened := tracks_opened hnull hsound hdisk hfile hintact
  have huses : ∀ a ∈ attempts, ∀ ki, Used disk [a] ki → Used disk attempts ki := by
    rintro a ha ki ⟨pindex, block, hmem, hblock⟩
    exact ⟨pindex, block, mem_singleton.mp hmem ▸ ha, hblock⟩
  have hboth : Always (attempt rules keys disk durable.chain) (Judged rules keys disk)
      (opened durable file) attempts ∧ Tracks disk (Used disk attempts) durable.chain
        (activated rules keys disk durable file attempts) :=
    always_of_invariant (Tracks disk (Used disk attempts) durable.chain)
      (fun s a ha hs => tracks_attempt hgenesis hs (huses a ha))
      (fun s a ha hs => hs.judged hgenesis (huses a ha)) hopened
  obtain ⟨hjudged, htracks⟩ := hboth
  refine ⟨hjudged, ?_⟩
  exact (healed_selfHeal htracks.based.owned htracks.based.onDisk).2 htracks.sound.nodup

end Soundness

section Sample

/-- The genesis block of the sample has header 1 here, as the hash of header 0 is null. -/
def startRules : Rules := { sampleRules with
  hashGenesisBlock := sampleHash 1
  checkMerkleRoot := fun block => rejectIf
    (sampleCrypto.hash256 block.header.toList = sampleHash 1 ∧ block.vtx.length ≠ 1)
    (.invalid "bad-txnmrklroot") }

theorem startRules_genesisPlain : GenesisPlain startRules := by
  intro block height hhash hcheck
  simp only [checkBlock, bind_ok, if_true] at hcheck
  obtain ⟨-, -, u, hmerkle, -⟩ := hcheck
  simp only [startRules, rejectIf_ok, not_and, not_not] at hmerkle
  exact hmerkle hhash

def startHashes (n : ℕ) : List BlockHash := (sampleAncestors (n + 1)).dropLast

theorem startHashes_nodup {n : ℕ} (h : n < 103) : (sampleHash (n + 1) :: startHashes n).Nodup := by
  have hchain : ((sampleAncestors 104).map sampleValue).IsChain (· > ·) := by decide +kernel
  have hall : (sampleAncestors 104).Nodup :=
    List.Nodup.of_map _ ((isChain_iff_pairwise.mp hchain).imp fun h => Nat.ne_of_gt h)
  have hsuffix : sampleAncestors (n + 2) <:+ sampleAncestors 104 :=
    sampleAncestors_suffix (by omega)
  exact ((dropLast_sublist _).cons_cons _).nodup (hsuffix.sublist.nodup hall)

def startEntry (n : ℕ) : BlockIndex :=
  if h : n < 103 then
    ⟨sampleHash (n + 1), startHashes n, startHashes_nodup h,
      by rw [startHashes, length_dropLast, sampleAncestors_length]; omega⟩
  else sampleIndex

def startBlock (n : ℕ) (txs : List Transaction) : ActiveBlock :=
  (startEntry n, sampleBlock (n + 1) (sampleCoinbase (sampleScript n) :: txs))

/-- The blocks below the first ring spend. -/
def plainBlocks : List ActiveBlock := (List.range 101).map fun n => startBlock n []

def ringBlock : ActiveBlock := startBlock 101 [sampleSpend, sampleRing sampleSpendRef 50 60]

/-- A block on top that repeats the key image. -/
def repeatBlock : ActiveBlock := startBlock 102 [sampleRing sampleSpendRef 50 70]

def ringImage : Point := .replicate 33 50

def storedBlocks : List ActiveBlock := plainBlocks ++ [ringBlock, repeatBlock]

def startDisk (blockHash : BlockHash) : Option Block :=
  (storedBlocks.find? fun e => e.1.hash = blockHash).map Prod.snd

/-- Without the key image in the file the repetition is connected. With it in a legacy file the
block that brings it is not. -/
def startVerdicts (s : Chainstate) : Bool :=
  match connectTip startRules samplePubKeys ringBlock.1 ringBlock.2 s with
  | .error _ => false
  | .ok t =>
    succeeds (fun _ => true) (connectTip startRules samplePubKeys repeatBlock.1 repeatBlock.2
      (opened t (.v2 []))) &&
    !succeeds (fun _ => true) (connectTip startRules samplePubKeys ringBlock.1 ringBlock.2
      (opened s (.legacy [ringImage])))

theorem startVerdicts_run :
    succeeds startVerdicts (run (connectNext startRules samplePubKeys)
      (emptyChain ⟨.empty, none, true⟩) plainBlocks) = true := by
  decide +kernel

theorem storedBlocks_hashes :
    storedBlocks.map (fun e => e.1.hash) = (sampleHash 103 :: startHashes 102).reverse := by
  decide +kernel

theorem startDisk_eq {e : ActiveBlock} (he : e ∈ storedBlocks) :
    startDisk e.1.hash = some e.2 := by
  have hnd : (storedBlocks.map fun e => e.1.hash).Nodup := by
    rw [storedBlocks_hashes, nodup_reverse]
    exact startHashes_nodup (by decide)
  obtain ⟨e', hfound⟩ : ∃ e', storedBlocks.find? (fun e' => e'.1.hash = e.1.hash) = some e' :=
    Option.isSome_iff_exists.mp (List.find?_isSome.mpr ⟨e, he, by simp⟩)
  have hhash : e'.1.hash = e.1.hash := by simpa using List.find?_some hfound
  have heq : e' = e := inj_on_of_nodup_map hnd (mem_of_find?_eq_some hfound) he hhash
  rw [startDisk, hfound, heq]
  rfl

theorem startDisk_nullHash : startDisk nullHash = none := by
  decide +kernel

/-- A node that stopped with the given active blocks. -/
structure StoppedAt (blocks : List ActiveBlock) (durable : Chainstate) : Prop where
  reached : run (tipStep startRules samplePubKeys) (emptyChain ⟨.empty, none, true⟩)
    (blocks.map fun b => .connect b.1 b.2) = .ok durable
  chain : durable.chain = blocks.reverse
  stored : blocks ⊆ storedBlocks

namespace StoppedAt

variable {blocks : List ActiveBlock} {durable : Chainstate}

theorem imagesFollow (h : StoppedAt blocks durable) : ImagesFollow durable :=
  imagesFollow_run startRules_genesisPlain h.reached ⟨rfl, trivial⟩

theorem onDisk (h : StoppedAt blocks durable) : OnDisk startDisk durable.chain := by
  intro e he
  rw [h.chain, mem_reverse] at he
  exact startDisk_eq (h.stored he)

end StoppedAt

theorem starts : ∃ s t, StoppedAt plainBlocks s ∧ StoppedAt (plainBlocks ++ [ringBlock]) t ∧
    connectTip startRules samplePubKeys ringBlock.1 ringBlock.2 s = .ok t ∧
    (∃ t', connectTip startRules samplePubKeys repeatBlock.1 repeatBlock.2
      (opened t (.v2 [])) = .ok t') ∧
    ¬ ∃ s', connectTip startRules samplePubKeys ringBlock.1 ringBlock.2
      (opened s (.legacy [ringImage])) = .ok s' := by
  obtain ⟨s, hs, hverdicts⟩ := succeeds_iff.mp startVerdicts_run
  have hchain : s.chain = plainBlocks.reverse := by
    rw [run_connectNext_chain hs]
    exact append_nil _
  have hrun := run_tipStep_of_connectNext hs
  unfold startVerdicts at hverdicts
  split at hverdicts
  · exact absurd hverdicts Bool.false_ne_true
  · rename_i t ht
    have htop : t.chain = ringBlock :: s.chain :=
      (connectTip_images startRules_genesisPlain ht).1
    rw [Bool.and_eq_true, succeeds_iff, Bool.not_eq_true', ← Bool.not_eq_true, succeeds_iff]
      at hverdicts
    simp only [and_true] at hverdicts
    refine ⟨s, t, ⟨hrun, hchain, subset_append_left _ _⟩, ⟨?_, ?_, ?_⟩, ht, hverdicts⟩
    · rw [map_append, run_append]
      refine ⟨s, hrun, ?_⟩
      rw [map_singleton, run, bind_ok]
      exact ⟨t, mapError_ok.mpr ht, rfl⟩
    · rw [htop, hchain, ← reverse_concat]
    · rw [storedBlocks]
      exact append_subset.mpr ⟨subset_append_left _ _, by simp⟩

theorem ringImage_mem {chain : List ActiveBlock} (h : ringBlock ∈ chain) :
    ringImage ∈ chainKeyImages chain :=
  mem_chainKeyImages.mpr ⟨ringBlock, h, by decide +kernel⟩

/-- With a key image of the durable chain missing from the file, a block that repeats it is
connected. With a key image from above the durable chain in a legacy file, the block that brings
it is refused. -/
theorem exists_misjudged_starts :
    (∃ durable, StoppedAt (plainBlocks ++ [ringBlock]) durable ∧
      (StoreFile.v2 []).WellFormed startDisk ∧
      ¬ Always (attempt startRules samplePubKeys startDisk durable.chain)
        (Judged startRules samplePubKeys startDisk) (opened durable (.v2 []))
        [.connect repeatBlock.1]) ∧
    (∃ durable, StoppedAt plainBlocks durable ∧
      (StoreFile.legacy [ringImage]).WellFormed startDisk ∧
      ¬ Always (attempt startRules samplePubKeys startDisk durable.chain)
        (Judged startRules samplePubKeys startDisk) (opened durable (.legacy [ringImage]))
        [.connect ringBlock.1]) := by
  obtain ⟨s, t, hs, ht, hring, hrepeat, hrefused⟩ := starts
  refine ⟨⟨t, ht, by simp [StoreFile.WellFormed], fun halways => ?_⟩,
    ⟨s, hs, by unfold StoreFile.WellFormed; decide, fun halways => ?_⟩⟩
  · have hjudged := halways.1 repeatBlock.2 (startDisk_eq (by simp [storedBlocks]))
    refine hjudged.2 hrepeat ringImage (by decide +kernel) (ringImage_mem ?_)
    change ringBlock ∈ t.chain
    rw [ht.chain]
    simp
  · have hjudged := halways.1 ringBlock.2 (startDisk_eq (by simp [storedBlocks]))
    have himages : s.store.images.members = (chainImages s.chain).members :=
      congrArg TaggedSet.members hs.imagesFollow.images
    refine hrefused (hjudged.1.mpr ?_)
    exact connectTip_congr (s := s) (t := withOwnStore (opened s _)) rfl rfl
      (fun ki _ => by rw [himages]; rfl) hring

/-- A file without the key image is healed, also where the repetition was connected first. -/
theorem members_startUp_of_lost_file : ∃ durable, StoppedAt (plainBlocks ++ [ringBlock]) durable ∧
    ∀ ki, ki ∈ (startUp startRules samplePubKeys startDisk durable (.v2 [])
        [.connect repeatBlock.1]).store.images.members ↔
      ki ∈ chainKeyImages (startUp startRules samplePubKeys startDisk durable (.v2 [])
        [.connect repeatBlock.1]).chain := by
  obtain ⟨s, t, -, ht, -⟩ := starts
  exact ⟨t, ht, members_startUp startRules_genesisPlain startDisk_nullHash ht.onDisk
    (by simp [StoreFile.WellFormed]) _⟩

theorem intact_ring {durable : Chainstate} (h : StoppedAt (plainBlocks ++ [ringBlock]) durable)
    (attempts : List Attempt) :
    Intact startDisk durable.chain (.v2 [(ringBlock.1.hash, [ringImage])]) attempts := by
  have hmem : ringBlock ∈ durable.chain := by
    rw [h.chain]
    simp
  have himages : chainKeyImages durable.chain = [ringImage] := by
    rw [h.chain]
    decide +kernel
  intro ki _
  rw [himages, mem_singleton]
  have hkept : keptBeforeActivation durable.chain ringBlock.1.hash = true := by
    have hhash : ringBlock.1.hash ∈ chainHashes durable.chain := mem_map_of_mem hmem
    simp [keptBeforeActivation, hhash]
  constructor
  · rintro ⟨k, hk, -⟩
    by_contra hne
    simp [StoreFile.entries, TaggedSet.filedUnder, hne] at hk
  · rintro rfl
    exact ⟨_, by decide +kernel, hkept⟩

/-- With the key image in the file under its block, the repetition is refused. -/
theorem startUp_of_intact_ring : ∃ durable,
    Always (attempt startRules samplePubKeys startDisk durable.chain)
      (Judged startRules samplePubKeys startDisk)
      (opened durable (.v2 [(ringBlock.1.hash, [ringImage])])) [.connect repeatBlock.1] ∧
    Healed (startUp startRules samplePubKeys startDisk durable
      (.v2 [(ringBlock.1.hash, [ringImage])]) [.connect repeatBlock.1]) := by
  obtain ⟨s, t, -, ht, -, -, -⟩ := starts
  refine ⟨t, startUp_of_intact startRules_genesisPlain startDisk_nullHash ht.imagesFollow.sound
    ht.onDisk ?_ (intact_ring ht _)⟩
  intro e he
  obtain rfl := mem_singleton.mp he
  refine ⟨by decide, fun block hblock => ?_⟩
  have hstored : startDisk ringBlock.1.hash = some ringBlock.2 :=
    startDisk_eq (by simp [storedBlocks])
  have heq : block = ringBlock.2 := Option.some.inj (hblock.symm.trans hstored)
  rw [heq]
  decide +kernel

end Sample

end Pricoin.StartUp
