import Pricoin.KeyImageStore
import Pricoin.Runs

/-!
What a restart reads back from the key-image file. The loader needs the magic in
front, which only a rewrite of the file puts there: appending to a file that does
not exist starts it with the entry itself. A store that has been rewritten since
the file was created survives a restart, as does one with nothing in it. A store
that has only been appended to is read as a v1 file, and its blocks lose their
buckets.
-/
namespace Pricoin.StoreDurability

open ByteStreams TaggedSets KeyImageFile KeyImageStore Runs List

variable {s : Store} {op : Op} {blockHash : BlockHash}

/-- A restart finds the same images under the same blocks. -/
def Durable (s : Store) : Prop := (restart s).images.Same s.images

/-- The step drops a bucket, and so writes the file anew. -/
def Rewrites (s : Store) : Op → Prop
  | .commit _ _ => False
  | .uncommit blockHash => blockHash ∈ s.images.buckets
  | .prune isInActiveChain => orphans isInActiveChain s ≠ []

instance (s : Store) : (op : Op) → Decidable (Rewrites s op)
  | .commit _ _ => isFalse id
  | .uncommit blockHash => inferInstanceAs (Decidable (blockHash ∈ s.images.buckets))
  | .prune isInActiveChain => inferInstanceAs (Decidable (orphans isInActiveChain s ≠ []))

/-- No block has more images than the loader takes in one entry. -/
def Bounded (s : Store) : Prop := ∀ e ∈ s.images.entries, e.2.length ≤ maxEntryImages

/-- How many images the calls give for a block. -/
def givenFor (blockHash : BlockHash) : List Op → ℕ
  | [] => 0
  | .commit blockHash' kis :: ops =>
    (if blockHash' = blockHash then kis.length else 0) + givenFor blockHash ops
  | .uncommit _ :: ops => givenFor blockHash ops
  | .prune _ :: ops => givenFor blockHash ops

/-- The block of the first call that commits an image. -/
def firstCommit : List Op → Option BlockHash
  | [] => none
  | .commit blockHash (_ :: _) :: _ => some blockHash
  | _ :: ops => firstCommit ops

theorem Rewrites.apply_eq (h : Rewrites s op) :
    ∃ t : Store, apply s op = rewriteFile t ∧ t.pathSet = s.pathSet := by
  cases op with
  | commit blockHash kis => exact absurd h id
  | uncommit blockHash =>
    refine ⟨{ s with images := s.images.dropBucket blockHash }, ?_, rfl⟩
    simp only [apply, uncommitBlockKIs, if_pos (show blockHash ∈ s.images.buckets from h)]
  | prune isInActiveChain =>
    refine ⟨{ s with images := s.images.dropBuckets (orphans isInActiveChain s) }, ?_, rfl⟩
    simp only [apply, pruneOrphanedKeyImages,
      if_neg (show ¬ orphans isInActiveChain s = [] from h)]

theorem apply_of_not_rewrites (h : ¬ Rewrites s op) :
    apply s op = s ∨ ∃ blockHash kis, op = .commit blockHash kis ∧ kis ≠ [] := by
  cases op with
  | commit blockHash kis =>
    by_cases hkis : kis = []
    · exact .inl (by simp [apply, commitBlockKIs, hkis])
    · exact .inr ⟨blockHash, kis, rfl, hkis⟩
  | uncommit blockHash =>
    left
    simp only [apply, uncommitBlockKIs, if_neg (show ¬ blockHash ∈ s.images.buckets from h)]
  | prune isInActiveChain =>
    left
    simp only [apply, pruneOrphanedKeyImages,
      if_pos (show orphans isInActiveChain s = [] from not_not.mp h)]

theorem bucket_apply_le (s : Store) (op : Op) (ops : List Op) (blockHash : BlockHash) :
    ((apply s op).images.bucket blockHash).length + givenFor blockHash ops ≤
      (s.images.bucket blockHash).length + givenFor blockHash (op :: ops) := by
  cases op with
  | commit blockHash' kis =>
    have hadded : (newlyAdded s.images.members kis).length ≤ kis.length :=
      (subperm_of_subset (newlyAdded_nodup _ _) fun _ h => (mem_newlyAdded.mp h).1).length_le
    rw [apply, commitBlockKIs_images, givenFor]
    split
    · omega
    · rw [TaggedSet.bucket_addAll]
      split
      · rename_i heq
        rw [length_append, heq]
        omega
      · omega
  | uncommit blockHash' =>
    rw [apply, uncommitBlockKIs_images, givenFor]
    split
    · rw [TaggedSet.bucket_dropBucket]
      split <;> simp
    · exact le_rfl
  | prune isInActiveChain =>
    rw [apply, pruneOrphanedKeyImages_images, TaggedSet.bucket_dropBuckets, givenFor]
    split <;> simp

/-- What the calls give for a block bounds its bucket. -/
theorem always_bounded {ops : List Op} (h : ∀ blockHash,
    (s.images.bucket blockHash).length + givenFor blockHash ops ≤ maxEntryImages) :
    Always apply (fun t op => Bounded (apply t op)) s ops := by
  induction ops generalizing s with
  | nil => trivial
  | cons op ops ih =>
    have hnext := fun blockHash => (bucket_apply_le s op ops blockHash).trans (h blockHash)
    refine ⟨fun e he => ?_, ih hnext⟩
    have hbucket : (apply s op).images.bucket e.1 = e.2 := by
      rw [TaggedSet.bucket, (TaggedSet.mem_entries.mp he).1]
      rfl
    exact hbucket ▸ Nat.le_of_add_right_le (hnext e.1)

private theorem added_le_of_bounded {kis : List Point}
    (h : Bounded (apply s (.commit blockHash kis))) :
    (newlyAdded s.images.members kis).length ≤ maxEntryImages := by
  by_cases hnew : newlyAdded s.images.members kis = []
  · simp [hnew]
  · have hkis : kis ≠ [] := by
      rintro rfl
      exact hnew rfl
    have hget : (apply s (.commit blockHash kis)).images.buckets[blockHash]? =
        some (s.images.bucket blockHash ++ newlyAdded s.images.members kis) := by
      rw [apply, commitBlockKIs_images, if_neg hkis, TaggedSet.getElem?_addAll, if_pos rfl]
    have hlen := h (blockHash, _) (TaggedSet.mem_entries.mpr ⟨hget, by simp [hnew]⟩)
    rw [length_append] at hlen
    omega

/-- The file and memory agree, and go on agreeing. -/
def Recorded (s : Store) : Prop := s.images.WellFormed ∧ ∃ es, Records s es

theorem recorded_of_rewrites (hwf : s.images.WellFormed) (hpath : s.pathSet = true)
    (hop : Rewrites s op) (hsize : Bounded (apply s op)) : Recorded (apply s op) := by
  have hwf' := wellFormed_apply hwf op
  obtain ⟨t, ht, htpath⟩ := hop.apply_eq
  rw [ht] at hwf' hsize ⊢
  refine ⟨hwf', t.images.entries, records_rewriteFile (htpath.trans hpath) ?_ ?_⟩
  · rwa [rewriteFile_images] at hwf'
  · rwa [Bounded, rewriteFile_images] at hsize

theorem recorded_apply (hsize : Bounded (apply s op)) (h : Recorded s) : Recorded (apply s op) := by
  obtain ⟨hwf, es, hes⟩ := h
  by_cases hop : Rewrites s op
  · exact recorded_of_rewrites hwf hes.pathSet hop hsize
  · rcases apply_of_not_rewrites hop with heq | ⟨blockHash, kis, rfl, -⟩
    · rw [heq]
      exact ⟨hwf, es, hes⟩
    · exact ⟨wellFormed_apply hwf _, _, hes.commit (added_le_of_bounded hsize)⟩

theorem Recorded.durable (h : Recorded s) : Durable s := by
  obtain ⟨-, es, hes⟩ := h
  rw [Durable, hes.restart_eq]
  exact hes.loads

/-- One rewrite repairs the file for the rest of the run. -/
theorem recorded_of_sometime_rewrites {ops : List Op} (hwf : s.images.WellFormed)
    (hpath : s.pathSet = true) (hsize : Always apply (fun t op => Bounded (apply t op)) s ops)
    (hrewrite : Sometime apply Rewrites s ops) : Recorded (runOps s ops) := by
  obtain ⟨pre, op, post, rfl, hop⟩ := hrewrite.exists_split
  obtain ⟨hpre, hop_size, hpost⟩ := Always.append.mp hsize
  have hstep : ∀ (t : Store) op, Bounded (apply t op) →
      t.images.WellFormed ∧ t.pathSet = true →
      (apply t op).images.WellFormed ∧ (apply t op).pathSet = true :=
    fun t op _ ht => ⟨wellFormed_apply ht.1 op, (apply_pathSet t op).trans ht.2⟩
  have hreach := hpre.invariant hstep ⟨hwf, hpath⟩
  rw [runOps, foldl_append, foldl_cons]
  exact hpost.invariant (fun t op hop_size ht => recorded_apply hop_size ht)
    (recorded_of_rewrites hreach.1 hreach.2 hop hop_size)

/-- The store before the first image: nothing in memory and no file. -/
def Fresh (s : Store) : Prop := s = ⟨.empty, none, true⟩

theorem fresh_init {wipe : Bool} (h : wipe = true ∨ s = newProcess none) :
    Fresh (initKeyImageStore wipe s) := by
  rcases h with rfl | rfl
  · rfl
  · cases wipe <;> rfl

theorem not_rewrites_of_fresh (h : Fresh s) (op : Op) : ¬ Rewrites s op := by
  subst h
  cases op with
  | commit blockHash kis => exact id
  | uncommit blockHash => simp [Rewrites, TaggedSet.empty]
  | prune isInActiveChain => simp [Rewrites, orphans, TaggedSet.empty]

theorem Fresh.durable (h : Fresh s) : Durable s := by
  subst h
  exact TaggedSet.Same.refl _

theorem firstCommit_split (ops : List Op) :
    firstCommit ops = none ∨
    ∃ pre blockHash ki kis post, ops = pre ++ .commit blockHash (ki :: kis) :: post ∧
      firstCommit pre = none ∧ firstCommit ops = some blockHash := by
  induction ops with
  | nil => exact .inl rfl
  | cons op ops ih =>
    have hskip (hop : ∀ rest, firstCommit (op :: rest) = firstCommit rest) :
        firstCommit (op :: ops) = none ∨
        ∃ pre blockHash ki kis post, op :: ops = pre ++ .commit blockHash (ki :: kis) :: post ∧
          firstCommit pre = none ∧ firstCommit (op :: ops) = some blockHash := by
      rw [hop]
      refine ih.imp id ?_
      rintro ⟨pre, blockHash, ki, kis, post, rfl, hpre, hfirst⟩
      exact ⟨op :: pre, blockHash, ki, kis, post, rfl, (hop pre).trans hpre, hfirst⟩
    cases op with
    | commit blockHash kis =>
      cases kis with
      | nil => exact hskip fun _ => rfl
      | cons ki kis => exact .inr ⟨[], blockHash, ki, kis, ops, rfl, rfl, rfl⟩
    | uncommit blockHash => exact hskip fun _ => rfl
    | prune isInActiveChain => exact hskip fun _ => rfl

/-- Up to the first commit of an image nothing happens. -/
theorem runOps_of_firstCommit_none (hs : Fresh s) {ops : List Op} (h : firstCommit ops = none) :
    runOps s ops = s := by
  induction ops with
  | nil => rfl
  | cons op ops ih =>
    have hsame : apply s op = s := by
      rcases apply_of_not_rewrites (not_rewrites_of_fresh hs op) with heq | ⟨_, kis, rfl, hkis⟩
      · exact heq
      · obtain ⟨ki, kis, rfl⟩ := exists_cons_of_ne_nil hkis
        simp [firstCommit] at h
    have htail : firstCommit ops = none := by
      cases op with
      | commit blockHash kis =>
        cases kis with
        | nil => exact h
        | cons ki kis => simp [firstCommit] at h
      | uncommit blockHash => exact h
      | prune isInActiveChain => exact h
    rw [runOps, foldl_cons, hsame]
    exact ih htail

/-- The file starts with a block's hash where the magic should be. -/
structure Headless (blockHash : BlockHash) (s : Store) : Prop where
  pathSet : s.pathSet = true
  file : ∃ rest, s.file = some (blockHash.toList ++ rest)
  bucket : s.images.bucket blockHash ≠ []

theorem headless_first_commit (hs : Fresh s) (blockHash : BlockHash) (ki : Point)
    (kis : List Point) : Headless blockHash (commitBlockKIs blockHash (ki :: kis) s) := by
  subst hs
  have hnew : newlyAdded (∅ : Finset Point) (ki :: kis) ≠ [] := by
    intro hnil
    exact Finset.notMem_empty ki (newlyAdded_eq_nil.mp hnil ki mem_cons_self)
  refine ⟨apply_pathSet _ (.commit blockHash (ki :: kis)), ⟨?_, ?_⟩, ?_⟩
  · exact (leBlock 4 (newlyAdded (∅ : Finset Point) (ki :: kis)).length).toList ++
      imageBytes (newlyAdded (∅ : Finset Point) (ki :: kis))
  · rw [commitBlockKIs_file rfl]
    simp only [TaggedSet.empty, if_neg hnew, writeEntry, Option.getD_none, nil_append,
      append_assoc]
  · rw [commitBlockKIs_images, if_neg (by simp), TaggedSet.bucket_addAll, if_pos rfl]
    rw [TaggedSet.bucket_empty, nil_append]
    exact hnew

theorem headless_apply (hop : ¬ Rewrites s op) (h : Headless blockHash s) :
    Headless blockHash (apply s op) := by
  rcases apply_of_not_rewrites hop with heq | ⟨blockHash', kis, rfl, hkis⟩
  · rwa [heq]
  · obtain ⟨rest, hrest⟩ := h.file
    refine ⟨(apply_pathSet s _).trans h.pathSet, ?_, ?_⟩
    · rw [apply, commitBlockKIs_file h.pathSet, hrest]
      split
      · exact ⟨rest, rfl⟩
      · exact ⟨rest ++ writeEntry blockHash' (newlyAdded s.images.members kis), by simp⟩
    · rw [apply, commitBlockKIs_images, if_neg hkis, TaggedSet.bucket_addAll]
      split
      · rename_i heq
        subst heq
        exact fun hnil => h.bucket (append_eq_nil_iff.mp hnil).1
      · exact h.bucket

/-- A headless file is read as a v1 file, and the block has no bucket after the restart. -/
theorem Headless.not_durable (h : Headless blockHash s) (hnull : blockHash ≠ nullHash)
    (hmagic : blockHash.toList.take 4 ≠ kKIFileMagic) : ¬ Durable s := by
  obtain ⟨rest, hrest⟩ := h.file
  have htake : (blockHash.toList ++ rest).take 4 ≠ kKIFileMagic := by
    rwa [take_append_of_le_length (by rw [blockHash.toList_length]; decide)]
  have hlost : (restart s).images.bucket blockHash = [] := by
    simp only [restart, initKeyImageStore, newProcess, hrest, Bool.false_eq_true, if_false,
      if_neg htake, rewriteFile_images]
    rw [bucket_loadLegacy _ _ _ hnull, TaggedSet.bucket, TaggedSet.getElem?_touch,
      if_neg (Ne.symm hnull)]
    rfl
  intro hdurable
  exact h.bucket ((hdurable.2 blockHash).symm.trans hlost)

/-- A store opened on an empty data directory survives a restart when no call commits an image
or some call has rewritten the file. Otherwise the images are lost to their blocks, whatever the
later calls append. -/
theorem durable_after_calls {wipeOnInit : Bool} {s₀ : Store}
    (hinit : wipeOnInit = true ∨ s₀ = newProcess none) (ops : List Op) :
    ((∀ blockHash, givenFor blockHash ops ≤ maxEntryImages) →
      firstCommit ops = none ∨ Sometime apply Rewrites (initKeyImageStore wipeOnInit s₀) ops →
      Durable (runOps (initKeyImageStore wipeOnInit s₀) ops)) ∧
    (∀ blockHash, firstCommit ops = some blockHash →
      ¬ Sometime apply Rewrites (initKeyImageStore wipeOnInit s₀) ops →
      blockHash ≠ nullHash → blockHash.toList.take 4 ≠ kKIFileMagic →
      ¬ Durable (runOps (initKeyImageStore wipeOnInit s₀) ops)) := by
  have hfresh := fresh_init hinit
  generalize initKeyImageStore wipeOnInit s₀ = s at hfresh ⊢
  refine ⟨fun hsize hcond => ?_, fun blockHash hfirst hrewrite hnull hmagic => ?_⟩
  · rcases hcond with hnone | hrewrite
    · rw [runOps_of_firstCommit_none hfresh hnone]
      exact hfresh.durable
    · have hwf : s.images.WellFormed := by
        rw [hfresh]
        exact TaggedSet.empty_wellFormed
      have hbounded : Always apply (fun t op => Bounded (apply t op)) s ops := by
        refine always_bounded fun blockHash => ?_
        rw [hfresh, TaggedSet.bucket_empty, length_nil, Nat.zero_add]
        exact hsize blockHash
      exact (recorded_of_sometime_rewrites hwf (by rw [hfresh]) hbounded hrewrite).durable
  · rcases firstCommit_split ops with hnone | ⟨pre, blockHash', ki, kis, post, rfl, hpre, hfirst'⟩
    · rw [hnone] at hfirst
      contradiction
    · obtain rfl : blockHash' = blockHash := Option.some.inj (hfirst'.symm.trans hfirst)
      have hquiet := (Always.append.mp (not_sometime.mp hrewrite)).2.2
      have hpre' : pre.foldl apply s = s := runOps_of_firstCommit_none hfresh hpre
      rw [hpre'] at hquiet
      rw [runOps, foldl_append, foldl_cons, hpre']
      exact (hquiet.invariant (fun t op hop ht => headless_apply hop ht)
        (headless_first_commit hfresh blockHash' ki kis)).not_durable hnull hmagic

/-- A fresh node that connects one block with one key image and restarts. -/
theorem not_durable_first_commit :
    ¬ Durable (runOps (initKeyImageStore false (newProcess none))
      [.commit (.replicate 32 1) [.replicate 33 2]]) := by
  intro h
  have hbucket := h.2 (.replicate 32 1)
  revert hbucket
  decide

theorem durable_after_calls_reorg :
    Durable (runOps (initKeyImageStore false (newProcess none))
      [.commit (.replicate 32 1) [.replicate 33 2],
        .uncommit (.replicate 32 1),
        .commit (.replicate 32 3) [.replicate 33 4]]) ∧
    ¬ Durable (runOps (initKeyImageStore true (newProcess none))
      [.commit (.replicate 32 1) [.replicate 33 2]]) :=
  ⟨(durable_after_calls (.inr rfl) _).1 (fun _ => by simp only [givenFor]; split_ifs <;> decide)
      (.inr (by decide)),
    (durable_after_calls (.inl rfl) _).2 (.replicate 32 1) rfl (by decide)
      (by decide) (by decide)⟩

end Pricoin.StoreDurability
