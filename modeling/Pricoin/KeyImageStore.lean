import Pricoin.KeyImageFile

/-!
The global key-image store of a node: the set of committed key images with a
bucket for each block, and the file that carries it over a restart. Connecting a
block appends one entry to the file. Disconnecting or pruning drops buckets and
rewrites the file from memory.
-/
namespace Pricoin.KeyImageStore

open ByteStreams TaggedSets KeyImageFile List

variable {s : Store} {blockHash : BlockHash} {kis : List Point} {es : List (BlockHash × List Point)}

/-- The store in memory, the file on disk if there is one, and whether `g_ki_path` is set. -/
@[ext]
structure Store where
  images : KeyImages
  file : Option (List UInt8)
  pathSet : Bool

/-- The store of a process that has not called `initKeyImageStore` yet. -/
def newProcess (file : Option (List UInt8)) : Store :=
  ⟨.empty, file, false⟩

def appendBlockEntry (blockHash : BlockHash) (kis : List Point) (s : Store) :
    Store :=
  if s.pathSet then { s with file := some (s.file.getD [] ++ writeEntry blockHash kis) } else s

def rewriteFile (s : Store) : Store :=
  if s.pathSet then { s with file := some (kKIFileMagic ++ writeEntries s.images.entries) } else s

def commitBlockKIs (blockHash : BlockHash) (kis : List Point) (s : Store) :
    Store :=
  if kis = [] then s
  else
    let added := newlyAdded s.images.members kis
    let s := { s with images := s.images.addAll blockHash kis }
    if added = [] then s else appendBlockEntry blockHash added s

def uncommitBlockKIs (blockHash : BlockHash) (s : Store) : Store :=
  if blockHash ∈ s.images.buckets then
    rewriteFile { s with images := s.images.dropBucket blockHash }
  else s

def isKeyImageCommitted (ki : Point) (s : Store) : Bool := ki ∈ s.images.members

/-- The blocks with a bucket that the active chain does not have. -/
def orphans (isInActiveChain : BlockHash → Bool) (s : Store) : List BlockHash :=
  s.images.buckets.keys.filter (fun blockHash => !isInActiveChain blockHash)

def pruneOrphanedKeyImages (isInActiveChain : BlockHash → Bool) (s : Store) :
    Store :=
  if orphans isInActiveChain s = [] then s
  else rewriteFile { s with images := s.images.dropBuckets (orphans isInActiveChain s) }

/-- Open the store at startup. A v1 file is rewritten in the v2 format at once. -/
def initKeyImageStore (wipeOnInit : Bool) (s : Store) : Store :=
  let s : Store := if wipeOnInit then ⟨.empty, none, true⟩
    else { s with pathSet := true }
  match s.file with
  | none => s
  | some bytes =>
    if bytes.take 4 = kKIFileMagic then { s with images := loadV2 (bytes.drop 4) s.images }
    else
      rewriteFile { s with
        images := loadLegacy bytes.length bytes (s.images.touch nullHash) }

/-- A new process opens the store on the file that the last one left. -/
def restart (s : Store) : Store := initKeyImageStore false (newProcess s.file)

inductive Op where
  | commit (blockHash : BlockHash) (kis : List Point)
  | uncommit (blockHash : BlockHash)
  | prune (isInActiveChain : BlockHash → Bool)

def apply (s : Store) : Op → Store
  | .commit blockHash kis => commitBlockKIs blockHash kis s
  | .uncommit blockHash => uncommitBlockKIs blockHash s
  | .prune isInActiveChain => pruneOrphanedKeyImages isInActiveChain s

def runOps (s : Store) (ops : List Op) : Store := ops.foldl apply s

section Fields

variable (s : Store) (blockHash : BlockHash) (kis : List Point)

@[simp] theorem appendBlockEntry_images : (appendBlockEntry blockHash kis s).images = s.images := by
  unfold appendBlockEntry
  split <;> rfl

@[simp] theorem rewriteFile_images : (rewriteFile s).images = s.images := by
  unfold rewriteFile
  split <;> rfl

@[simp] theorem appendBlockEntry_pathSet :
    (appendBlockEntry blockHash kis s).pathSet = s.pathSet := by
  unfold appendBlockEntry
  split <;> rfl

@[simp] theorem rewriteFile_pathSet : (rewriteFile s).pathSet = s.pathSet := by
  unfold rewriteFile
  split <;> rfl

theorem commitBlockKIs_images : (commitBlockKIs blockHash kis s).images =
    if kis = [] then s.images else s.images.addAll blockHash kis := by
  unfold commitBlockKIs
  by_cases h : kis = []
  · rw [if_pos h, if_pos h]
  · rw [if_neg h, if_neg h]
    dsimp only
    split
    · rfl
    · rw [appendBlockEntry_images]

theorem uncommitBlockKIs_images : (uncommitBlockKIs blockHash s).images =
    if blockHash ∈ s.images.buckets then s.images.dropBucket blockHash else s.images := by
  unfold uncommitBlockKIs
  split
  · rw [rewriteFile_images]
  · rfl

theorem pruneOrphanedKeyImages_images (isInActiveChain : BlockHash → Bool) :
    (pruneOrphanedKeyImages isInActiveChain s).images =
      s.images.dropBuckets (orphans isInActiveChain s) := by
  unfold pruneOrphanedKeyImages
  split
  · rename_i h
    rw [h]
    rfl
  · rw [rewriteFile_images]

end Fields

theorem members_commitBlockKIs {ki : Point} :
    ki ∈ (commitBlockKIs blockHash kis s).images.members ↔ ki ∈ s.images.members ∨ ki ∈ kis := by
  rw [commitBlockKIs_images]
  split
  · rename_i hnil
    simp [hnil]
  · rw [TaggedSet.members_addAll, Finset.mem_union, mem_toFinset]

theorem members_uncommitBlockKIs_subset (s : Store) (blockHash : BlockHash) :
    (uncommitBlockKIs blockHash s).images.members ⊆ s.images.members := by
  rw [uncommitBlockKIs_images]
  split
  · exact Finset.sdiff_subset
  · exact Finset.Subset.refl _

theorem apply_pathSet (s : Store) (op : Op) : (apply s op).pathSet = s.pathSet := by
  cases op with
  | commit blockHash kis =>
    simp only [apply, commitBlockKIs]
    split
    · rfl
    · split <;> simp
  | uncommit blockHash =>
    simp only [apply, uncommitBlockKIs]
    split <;> simp
  | prune isInActiveChain =>
    simp only [apply, pruneOrphanedKeyImages]
    split <;> simp

/-- Every operation keeps the buckets a partition of the committed images. -/
theorem wellFormed_apply (h : s.images.WellFormed) (op : Op) : (apply s op).images.WellFormed := by
  cases op with
  | commit blockHash kis =>
    change (commitBlockKIs blockHash kis s).images.WellFormed
    rw [commitBlockKIs_images]
    split
    · exact h
    · exact h.addAll blockHash kis
  | uncommit blockHash =>
    change (uncommitBlockKIs blockHash s).images.WellFormed
    rw [uncommitBlockKIs_images]
    split
    · exact h.dropBucket blockHash
    · exact h
  | prune isInActiveChain =>
    change (pruneOrphanedKeyImages isInActiveChain s).images.WellFormed
    rw [pruneOrphanedKeyImages_images]
    exact h.dropBuckets _

/-- Undoing the commit of a block's fresh images restores the store in memory, and writes the
file anew when there were any. -/
theorem uncommitBlockKIs_commitBlockKIs (hfree : blockHash ∉ s.images.buckets) (hnd : kis.Nodup)
    (hfresh : ∀ ki ∈ kis, ki ∉ s.images.members) :
    uncommitBlockKIs blockHash (commitBlockKIs blockHash kis s) =
      if kis = [] then s else rewriteFile s := by
  by_cases hkis : kis = []
  · rw [if_pos hkis, commitBlockKIs, if_pos hkis, uncommitBlockKIs, if_neg hfree]
  · have hnew : newlyAdded s.images.members kis ≠ [] := by
      rwa [newlyAdded_of_fresh hnd hfresh]
    have himages : (commitBlockKIs blockHash kis s).images = s.images.addAll blockHash kis := by
      rw [commitBlockKIs_images, if_neg hkis]
    have hbucket : blockHash ∈ (commitBlockKIs blockHash kis s).images.buckets := by
      rw [himages, ← Std.ExtTreeMap.isSome_getElem?_iff_mem, TaggedSet.getElem?_addAll, if_pos rfl]
      rfl
    rw [uncommitBlockKIs, if_pos hbucket, if_neg hkis, himages,
      TaggedSet.dropBucket_addAll s.images blockHash kis hfree hnd hfresh]
    obtain ⟨images, file, pathSet⟩ := s
    simp only [commitBlockKIs, if_neg hkis, if_neg hnew, appendBlockEntry, rewriteFile]
    cases pathSet <;> rfl

/-- The entries that a commit adds to the file, one or none. -/
def appendedEntries (s : Store) (blockHash : BlockHash) (kis : List Point) :
    List (BlockHash × List Point) :=
  if newlyAdded s.images.members kis = [] then []
  else [(blockHash, newlyAdded s.images.members kis)]

theorem commitBlockKIs_file (hpath : s.pathSet = true) (blockHash : BlockHash) (kis : List Point) :
    (commitBlockKIs blockHash kis s).file =
      if newlyAdded s.images.members kis = [] then s.file
      else some (s.file.getD [] ++ writeEntry blockHash (newlyAdded s.images.members kis)) := by
  unfold commitBlockKIs
  by_cases hkis : kis = []
  · simp [hkis, newlyAdded]
  · rw [if_neg hkis]
    dsimp only
    split
    · rfl
    · simp [appendBlockEntry, hpath]

theorem same_commitBlockKIs (s : Store) (blockHash : BlockHash) (kis : List Point) :
    (s.images.loadAll (appendedEntries s blockHash kis)).Same
      (commitBlockKIs blockHash kis s).images := by
  rw [commitBlockKIs_images, appendedEntries]
  by_cases hkis : kis = []
  · subst hkis
    exact TaggedSet.Same.refl s.images
  · rw [if_neg hkis]
    by_cases hnew : newlyAdded s.images.members kis = []
    · rw [if_pos hnew]
      refine TaggedSet.Same.symm ⟨?_, fun k => ?_⟩
      · rw [TaggedSet.members_addAll]
        refine Finset.union_eq_left.mpr fun a ha => ?_
        exact newlyAdded_eq_nil.mp hnew a (mem_toFinset.mp ha)
      · rw [TaggedSet.bucket_addAll, hnew, append_nil]
        split
        · rename_i hk
          rw [hk]
          rfl
        · rfl
    · rw [if_neg hnew]
      exact TaggedSet.same_addAll_newlyAdded s.images blockHash kis

/-- The file is a v2 file, written whole, that loads to what is in memory. -/
structure Records (s : Store) (es : List (BlockHash × List Point)) : Prop where
  pathSet : s.pathSet = true
  file : s.file = some (kKIFileMagic ++ writeEntries es)
  sized : ∀ e ∈ es, e.2.length ≤ maxEntryImages
  loads : ((.empty : KeyImages).loadAll es).Same s.images

theorem restart_of_magic {bytes : List UInt8} (h : s.file = some (kKIFileMagic ++ bytes)) :
    restart s = ⟨loadV2 bytes .empty, s.file, true⟩ := by
  simp [restart, initKeyImageStore, newProcess, h, kKIFileMagic]

theorem Records.restart_eq (h : Records s es) :
    restart s = ⟨(.empty : KeyImages).loadAll es, s.file, true⟩ := by
  have hload := loadV2_writeEntries es [] .empty h.sized
  rw [append_nil] at hload
  rw [restart_of_magic h.file, hload]
  rfl

theorem Records.restart (h : Records s es) : Records (restart s) es := by
  rw [h.restart_eq]
  exact ⟨rfl, h.file, h.sized, TaggedSet.Same.refl _⟩

theorem Records.commit (h : Records s es)
    (hsize : (newlyAdded s.images.members kis).length ≤ maxEntryImages) :
    Records (commitBlockKIs blockHash kis s) (es ++ appendedEntries s blockHash kis) := by
  refine ⟨(apply_pathSet s (.commit blockHash kis)).trans h.pathSet, ?_, ?_, ?_⟩
  · rw [commitBlockKIs_file h.pathSet, appendedEntries, h.file]
    split <;> simp [writeEntries]
  · intro e he
    rcases mem_append.mp he with he | he
    · exact h.sized e he
    · unfold appendedEntries at he
      split at he
      · simp at he
      · rw [mem_singleton.mp he]
        exact hsize
  · rw [TaggedSet.loadAll_append]
    exact (h.loads.loadAll _).trans (same_commitBlockKIs s blockHash kis)

/-- Whatever the file held before, a rewrite makes it agree with memory. -/
theorem records_rewriteFile (hpath : s.pathSet = true) (hwf : s.images.WellFormed)
    (hsize : ∀ e ∈ s.images.entries, e.2.length ≤ maxEntryImages) :
    Records (rewriteFile s) s.images.entries := by
  refine ⟨(rewriteFile_pathSet s).trans hpath, by simp [rewriteFile, hpath], hsize, ?_⟩
  rw [rewriteFile_images]
  exact hwf.same_loadAll_entries

end Pricoin.KeyImageStore
