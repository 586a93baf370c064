import Pricoin.KeyImageStore

/-!
Taking several blocks out of the key-image store and committing some of them again.
The first of the blocks with a bucket makes the store write its file anew, from what
is left, and the entries that are committed then are appended to that.
-/
namespace Pricoin.StoreRoundTrips

open TaggedSets KeyImageFile KeyImageStore List

/-- Uncommit blocks, the last of the list first. -/
def uncommitAll (hashes : List BlockHash) (s : Store) : Store := hashes.foldr uncommitBlockKIs s

/-- Commit the key images of blocks in order. -/
def commitAll (es : List (BlockHash × List Point)) (s : Store) : Store :=
  es.foldl (fun s e => commitBlockKIs e.1 e.2 s) s

theorem rewriteFile_rewriteFile (s : Store) (images : KeyImages) :
    rewriteFile { rewriteFile s with images := images } =
      rewriteFile { s with images := images } := by
  obtain ⟨_, _, pathSet⟩ := s
  cases pathSet <;> rfl

theorem images_uncommitAll (hashes : List BlockHash) (s : Store) :
    (uncommitAll hashes s).images = s.images.dropBuckets hashes.reverse := by
  induction hashes with
  | nil => rfl
  | cons blockHash rest ih =>
    change (uncommitBlockKIs blockHash (uncommitAll rest s)).images = _
    have hsplit : s.images.dropBuckets (rest.reverse ++ [blockHash]) =
        (s.images.dropBuckets rest.reverse).dropBucket blockHash := foldl_append
    rw [uncommitBlockKIs_images, ih, reverse_cons, hsplit]
    split
    · rfl
    · rename_i hfree
      exact (TaggedSet.dropBucket_of_notMem hfree).symm

/-- Blocks without a bucket leave the store alone, and the others make it write its file from
what is left. -/
theorem uncommitAll_eq (hashes : List BlockHash) (s : Store) :
    uncommitAll hashes s =
      if ∃ blockHash ∈ hashes, blockHash ∈ s.images.buckets then
        rewriteFile { s with images := s.images.dropBuckets hashes.reverse }
      else s := by
  induction hashes with
  | nil => simp [uncommitAll]
  | cons blockHash rest ih =>
    have himages := images_uncommitAll (blockHash :: rest) s
    change uncommitBlockKIs blockHash (uncommitAll rest s) = _
    change (uncommitBlockKIs blockHash (uncommitAll rest s)).images = _ at himages
    rw [uncommitBlockKIs_images] at himages
    unfold uncommitBlockKIs
    by_cases hmem : blockHash ∈ (uncommitAll rest s).images.buckets
    · rw [if_pos hmem] at himages
      have hold : blockHash ∈ s.images.buckets := by
        rw [images_uncommitAll, ← Std.ExtTreeMap.isSome_getElem?_iff_mem,
          TaggedSet.getElem?_dropBuckets] at hmem
        split at hmem
        · simp at hmem
        · exact Std.ExtTreeMap.isSome_getElem?_iff_mem.mp hmem
      rw [if_pos hmem, himages, if_pos ⟨blockHash, mem_cons_self, hold⟩, ih]
      split
      · rw [rewriteFile_rewriteFile]
      · rfl
    · rw [if_neg hmem] at himages
      rw [if_neg hmem]
      by_cases hrest : ∃ h ∈ rest, h ∈ s.images.buckets
      · have hany : ∃ h ∈ blockHash :: rest, h ∈ s.images.buckets := by
          obtain ⟨h, hh, hbucket⟩ := hrest
          exact ⟨h, mem_cons_of_mem _ hh, hbucket⟩
        rw [← himages, if_pos hany, ih, if_pos hrest, rewriteFile_images]
      · have hall : ¬ ∃ h ∈ blockHash :: rest, h ∈ s.images.buckets := by
          rintro ⟨h, hh, hbucket⟩
          rcases mem_cons.mp hh with rfl | hh
          · rw [ih, if_neg hrest] at hmem
            exact hmem hbucket
          · exact hrest ⟨h, hh, hbucket⟩
        rw [if_neg hall, ih, if_neg hrest]

theorem commitAll_filter (es : List (BlockHash × List Point)) (s : Store) :
    commitAll (es.filter (fun e => e.2 ≠ [])) s = commitAll es s := by
  induction es generalizing s with
  | nil => rfl
  | cons e rest ih =>
    by_cases he : e.2 = []
    · have hskip : commitBlockKIs e.1 e.2 s = s := by rw [commitBlockKIs, if_pos he]
      rw [filter_cons_of_neg (by simp [he])]
      change _ = commitAll rest (commitBlockKIs e.1 e.2 s)
      rw [hskip, ih]
    · rw [filter_cons_of_pos (by simpa using he)]
      exact ih _

/-- Entries of new images are loaded and appended one after the other. -/
theorem commitAll_eq {es : List (BlockHash × List Point)} {s : Store} (hne : ∀ e ∈ es, e.2 ≠ [])
    (hnd : (es.flatMap Prod.snd).Nodup)
    (hfresh : ∀ ki ∈ es.flatMap Prod.snd, ki ∉ s.images.members) :
    commitAll es s = ⟨s.images.loadAll es,
      if s.pathSet = true ∧ es ≠ [] then some (s.file.getD [] ++ writeEntries es) else s.file,
      s.pathSet⟩ := by
  induction es generalizing s with
  | nil => simp [commitAll, TaggedSet.loadAll]
  | cons e rest ih =>
    obtain ⟨hhead, htail⟩ := forall_mem_cons.mp hne
    rw [flatMap_cons, nodup_append'] at hnd
    simp only [flatMap_cons, mem_append] at hfresh
    have hnew : newlyAdded s.images.members e.2 = e.2 :=
      newlyAdded_of_fresh hnd.1 (fun ki hki => hfresh ki (.inl hki))
    have hstep : commitBlockKIs e.1 e.2 s = ⟨s.images.addAll e.1 e.2,
        if s.pathSet then some (s.file.getD [] ++ writeEntry e.1 e.2) else s.file, s.pathSet⟩ := by
      simp only [commitBlockKIs, if_neg hhead, hnew, appendBlockEntry]
      split <;> simp_all
    have hfresh' := TaggedSet.fresh_addAll e.1 hnd.2.2 (fun ki hki => hfresh ki (.inr hki))
    change commitAll rest (commitBlockKIs e.1 e.2 s) = _
    rw [ih htail hnd.2.1 (by rwa [hstep]), hstep]
    simp only [TaggedSet.loadAll, foldl_cons, Store.mk.injEq, true_and, and_true]
    cases hpath : s.pathSet with
    | false => simp
    | true =>
      by_cases hrest : rest = []
      · simp [hrest, writeEntries]
      · simp [hrest, writeEntries]

/-- The file after blocks with a bucket were taken out and entries of new images committed. -/
theorem commitAll_uncommitAll_file {hashes : List BlockHash} {es : List (BlockHash × List Point)}
    {s : Store} (hne : ∀ e ∈ es, e.2 ≠ []) (hnd : (es.flatMap Prod.snd).Nodup)
    (hfresh : ∀ ki ∈ es.flatMap Prod.snd, ki ∉ (uncommitAll hashes s).images.members)
    (hany : ∃ blockHash ∈ hashes, blockHash ∈ s.images.buckets) :
    (commitAll es (uncommitAll hashes s)).file =
      if s.pathSet then
        some (kKIFileMagic ++ writeEntries ((uncommitAll hashes s).images.entries ++ es))
      else s.file := by
  rw [commitAll_eq hne hnd hfresh, images_uncommitAll, uncommitAll_eq, if_pos hany]
  obtain ⟨images, file, pathSet⟩ := s
  cases pathSet with
  | false => rfl
  | true =>
    by_cases hes : es = []
    · simp [hes, rewriteFile, writeEntries]
    · simp [hes, rewriteFile, writeEntries]

theorem pathSet_commitAll_uncommitAll (hashes : List BlockHash)
    (es : List (BlockHash × List Point)) (s : Store) :
    (commitAll es (uncommitAll hashes s)).pathSet = s.pathSet := by
  have huncommit : (uncommitAll hashes s).pathSet = s.pathSet := by
    rw [uncommitAll_eq]
    split <;> simp
  rw [← huncommit]
  generalize uncommitAll hashes s = t
  induction es generalizing t with
  | nil => rfl
  | cons e rest ih => exact (ih _).trans (apply_pathSet t (.commit e.1 e.2))

end Pricoin.StoreRoundTrips
