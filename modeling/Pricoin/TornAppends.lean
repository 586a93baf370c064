import Pricoin.KeyImageStore
import Pricoin.Runs

/-!
A crash in the middle of an append leaves a torn entry at the end of the key-image
file. The loader stops there and leaves the bytes where they are, so that the next
append lands behind them. As long as nothing is appended every restart reads back
what was written. The first entry appended behind a torn one is read at the wrong
offset.
-/
namespace Pricoin.TornAppends

open ByteStreams TaggedSets KeyImageFile KeyImageStore Runs List

variable {blockHash : BlockHash} {t : Traced}

/-- A v2 file as the node writes it: entries of plausible size, no image twice. -/
structure V2File where
  entries : List (BlockHash × List Point)
  sized : ∀ e ∈ entries, e.2.length ≤ maxEntryImages
  distinct : (entries.flatMap Prod.snd).Nodup

namespace V2File

def bytes (F : V2File) : List UInt8 := kKIFileMagic ++ writeEntries F.entries

def images (F : V2File) : KeyImages := TaggedSet.loadAll .empty F.entries

/-- The images that committing a block appends to the file. -/
def added (F : V2File) (kis : List Point) : List Point := newlyAdded F.images.members kis

end V2File

inductive Later where
  | restart
  | commit (blockHash : BlockHash) (kis : List Point)

/-- The store with what has been written whole to its file and what has been committed. -/
structure Traced where
  store : Store
  written : List (BlockHash × List Point)
  committed : List (BlockHash × List Point)

def advance (t : Traced) : Later → Traced
  | .restart => { t with store := restart t.store }
  | .commit blockHash kis =>
    ⟨commitBlockKIs blockHash kis t.store, t.written ++ appendedEntries t.store blockHash kis,
      t.committed ++ [(blockHash, kis)]⟩

/-- The node is up again after the append of a block's entry was cut at an offset. -/
def afterCrash (F : V2File) (blockHash : BlockHash) (kis : List Point) (cut : ℕ) : Traced :=
  ⟨restart (newProcess (some (F.bytes ++ (writeEntry blockHash (F.added kis)).take cut))),
    F.entries, F.entries ++ [(blockHash, kis)]⟩

/-- Every whole entry is loaded under its block, and nothing under a block that did not commit
it. -/
def Recovered (t : Traced) : Prop :=
  (∀ e ∈ t.written, ∀ ki ∈ e.2, ki ∈ t.store.images.bucket e.1) ∧
  ∀ blockHash, ∀ ki ∈ t.store.images.bucket blockHash,
    ∃ e ∈ t.committed, e.1 = blockHash ∧ ki ∈ e.2

/-- The step writes an entry to the file. -/
def Appends (t : Traced) : Later → Prop
  | .restart => False
  | .commit _ kis => newlyAdded t.store.images.members kis ≠ []

/-- The entry that the step writes is one that the loader takes. -/
def Plausible (t : Traced) : Later → Prop
  | .restart => True
  | .commit _ kis => (newlyAdded t.store.images.members kis).length ≤ maxEntryImages

instance (t : Traced) : (op : Later) → Decidable (Appends t op)
  | .restart => isFalse id
  | .commit _ kis => inferInstanceAs (Decidable (newlyAdded t.store.images.members kis ≠ []))

instance (t : Traced) : (op : Later) → Decidable (Plausible t op)
  | .restart => isTrue trivial
  | .commit _ kis =>
    inferInstanceAs (Decidable ((newlyAdded t.store.images.members kis).length ≤ maxEntryImages))

section Torn

/-- A cut inside the images leaves some of them whole and a remainder shorter than one. -/
theorem imageBytes_take {kis : List Point} {m : ℕ} (h : m < kKISize * kis.length) :
    ∃ j tail, (imageBytes kis).take m = imageBytes (kis.take j) ++ tail ∧
      tail.length < kKISize ∧ (kis.take j).length < kis.length := by
  induction kis generalizing m with
  | nil => simp at h
  | cons ki kis ih =>
    have hbytes : imageBytes (ki :: kis) = ki.toList ++ imageBytes kis := by simp [imageBytes]
    by_cases hm : m < kKISize
    · refine ⟨0, (imageBytes (ki :: kis)).take m, by simp [imageBytes], ?_, by simp⟩
      exact Nat.lt_of_le_of_lt (length_take_le m _) hm
    · rw [length_cons, Nat.mul_add_one] at h
      obtain ⟨j, tail, htake, htail, hj⟩ := ih (m := m - kKISize) (by omega)
      refine ⟨j + 1, tail, ?_, htail, by simpa using hj⟩
      rw [hbytes, take_append, ki.toList_length, htake, take_of_length_le
        (by rw [ki.toList_length]; omega)]
      simp [imageBytes]

/-- The loader takes from a torn entry the images that are there whole. -/
theorem loadV2_torn (blockHash : BlockHash) (added : List Point) {cut : ℕ}
    (hsize : added.length ≤ maxEntryImages) (hcut : cut < (writeEntry blockHash added).length)
    (store : KeyImages) :
    loadV2 ((writeEntry blockHash added).take cut) store = store ∨
    ∃ j, loadV2 ((writeEntry blockHash added).take cut) store =
      store.addAll blockHash (added.take j) := by
  by_cases hshort : cut < 36
  · left
    refine loadV2_of_readHeader_none (readHeader_eq_none ?_) store
    exact Nat.lt_of_le_of_lt (length_take_le cut _) hshort
  · right
    rw [writeEntry_length] at hcut
    obtain ⟨j, tail, htake, htail, hj⟩ := @imageBytes_take added (cut - 36) (by omega)
    have hentry : (writeEntry blockHash added).take cut =
        blockHash.toList ++ (leBlock 4 added.length).toList ++
          (imageBytes (added.take j) ++ tail) := by
      have hheader : (blockHash.toList ++ (leBlock 4 added.length).toList).length = 36 := by
        rw [length_append, blockHash.toList_length, List.Vector.toList_length]
      rw [writeEntry, take_append, hheader, htake,
        take_of_length_le (by rw [hheader]; omega)]
    refine ⟨j, ?_⟩
    rw [hentry, loadV2_of_readHeader (readHeader_writeEntry blockHash added.length _ hsize),
      loadImages_short blockHash (added.take j) tail added.length _ htail hj]
    rfl

end Torn

theorem restart_torn (F : V2File) (torn : List UInt8) {s : Store}
    (h : s.file = some (F.bytes ++ torn)) :
    restart s = ⟨loadV2 torn F.images, s.file, true⟩ := by
  rw [V2File.bytes, append_assoc] at h
  rw [restart_of_magic h, loadV2_writeEntries _ _ _ F.sized]
  rfl

theorem V2File.mem_bucket {F : V2File} {ki : Point} :
    ki ∈ F.images.bucket blockHash ↔ ∃ e ∈ F.entries, e.1 = blockHash ∧ ki ∈ e.2 :=
  TaggedSet.mem_bucket_loadAll F.distinct

section Quiet

variable {F : V2File} {blockHash : BlockHash} {kis : List Point} {cut : ℕ}

/-- The torn file is still as the crash left it. -/
structure Untouched (F : V2File) (blockHash : BlockHash) (kis : List Point) (cut : ℕ)
    (t : Traced) : Prop where
  pathSet : t.store.pathSet = true
  file : t.store.file = some (F.bytes ++ (writeEntry blockHash (F.added kis)).take cut)
  written : t.written = F.entries
  committed : ∀ e ∈ F.entries ++ [(blockHash, kis)], e ∈ t.committed

theorem untouched_afterCrash : Untouched F blockHash kis cut (afterCrash F blockHash kis cut) := by
  unfold afterCrash
  rw [restart_torn F _ rfl]
  exact ⟨rfl, rfl, rfl, fun e he => he⟩

theorem untouched_advance {op : Later} (hop : ¬ Appends t op)
    (h : Untouched F blockHash kis cut t) : Untouched F blockHash kis cut (advance t op) := by
  cases op with
  | restart =>
    refine ⟨?_, ?_, h.written, h.committed⟩ <;> rw [advance, restart_torn F _ h.file]
    exact h.file
  | commit blockHash' kis' =>
    have hnew : newlyAdded t.store.images.members kis' = [] := not_not.mp hop
    refine ⟨(apply_pathSet t.store (.commit blockHash' kis')).trans h.pathSet, ?_, ?_, ?_⟩
    · rw [advance, commitBlockKIs_file h.pathSet, if_pos hnew]
      exact h.file
    · rw [advance, appendedEntries, if_pos hnew, append_nil]
      exact h.written
    · exact fun e he => mem_append_left _ (h.committed e he)

theorem Untouched.recovered (h : Untouched F blockHash kis cut t)
    (hsize : (F.added kis).length ≤ maxEntryImages)
    (hcut : cut < (writeEntry blockHash (F.added kis)).length) :
    Recovered (advance t .restart) := by
  have hold : ∀ e ∈ F.entries, e ∈ t.committed :=
    fun e he => h.committed e (mem_append_left _ he)
  unfold Recovered
  simp only [advance, restart_torn F _ h.file, h.written]
  rcases loadV2_torn blockHash (F.added kis) hsize hcut F.images with heq | ⟨j, heq⟩
  · rw [heq]
    refine ⟨fun e he ki hki => V2File.mem_bucket.mpr ⟨e, he, rfl, hki⟩, fun b ki hki => ?_⟩
    obtain ⟨e, he, hb, hki⟩ := V2File.mem_bucket.mp hki
    exact ⟨e, hold e he, hb, hki⟩
  · have hbucket : ∀ b ki, ki ∈ (F.images.addAll blockHash ((F.added kis).take j)).bucket b ↔
        ki ∈ F.images.bucket b ∨ (blockHash = b ∧
          ki ∈ newlyAdded F.images.members ((F.added kis).take j)) := by
      intro b ki
      rw [TaggedSet.bucket_addAll]
      by_cases hb : blockHash = b <;> simp [hb]
    rw [heq]
    refine ⟨fun e he ki hki => ?_, fun b ki hki => ?_⟩
    · exact (hbucket e.1 ki).mpr (.inl (V2File.mem_bucket.mpr ⟨e, he, rfl, hki⟩))
    · rcases (hbucket b ki).mp hki with hki | ⟨hb, hnew⟩
      · obtain ⟨e, he, hb, hki⟩ := V2File.mem_bucket.mp hki
        exact ⟨e, hold e he, hb, hki⟩
      · have hadded : ki ∈ F.added kis := mem_of_mem_take (mem_newlyAdded.mp hnew).1
        exact ⟨(blockHash, kis), h.committed _ (by simp), hb, (mem_newlyAdded.mp hadded).1⟩

end Quiet

/-- The file is whole and holds what was written, each entry from a commit. -/
structure Intact (t : Traced) : Prop where
  records : Records t.store t.written
  distinct : (t.written.flatMap Prod.snd).Nodup
  origin : ∀ e ∈ t.written, ∃ c ∈ t.committed, c.1 = e.1 ∧ ∀ ki ∈ e.2, ki ∈ c.2

theorem intact_afterCrash (F : V2File) (blockHash : BlockHash) (kis : List Point) :
    Intact (afterCrash F blockHash kis 0) := by
  refine ⟨?_, F.distinct, ?_⟩
  · rw [afterCrash, restart_torn F _ rfl]
    refine ⟨rfl, by simp [newProcess, V2File.bytes], F.sized, TaggedSet.Same.refl _⟩
  · exact fun e he => ⟨e, mem_append_left _ he, rfl, fun _ hki => hki⟩

theorem intact_advance {op : Later} (hop : Plausible t op) (h : Intact t) :
    Intact (advance t op) := by
  cases op with
  | restart => exact ⟨h.records.restart, h.distinct, h.origin⟩
  | commit blockHash kis =>
    refine ⟨h.records.commit hop, ?_, ?_⟩
    · have hmembers : t.store.images.members = (t.written.flatMap Prod.snd).toFinset := by
        rw [← h.records.loads.1, (TaggedSet.loadAll_of_fresh _ _ h.distinct
          (fun a _ => Finset.notMem_empty a)).1]
        exact Finset.ext fun a => by simp [TaggedSet.empty]
      rw [advance, flatMap_append, nodup_append']
      refine ⟨h.distinct, ?_, ?_⟩ <;> unfold appendedEntries <;> split
      · simp
      · simpa using newlyAdded_nodup t.store.images.members kis
      · simp
      · intro ki hki hnew
        simp only [flatMap_cons, flatMap_nil, append_nil] at hnew
        rw [mem_newlyAdded, hmembers, mem_toFinset] at hnew
        exact hnew.2 hki
    · intro e he
      rcases mem_append.mp he with he | he
      · obtain ⟨c, hc, hce⟩ := h.origin e he
        exact ⟨c, mem_append_left _ hc, hce⟩
      · refine ⟨(blockHash, kis), mem_append_right _ (by simp), ?_⟩
        unfold appendedEntries at he
        split at he
        · simp at he
        · rw [mem_singleton.mp he]
          exact ⟨rfl, fun ki hki => (mem_newlyAdded.mp hki).1⟩

theorem Intact.recovered (h : Intact t) : Recovered (advance t .restart) := by
  unfold Recovered
  simp only [advance, h.records.restart_eq]
  refine ⟨fun e he ki hki => ?_, fun b ki hki => ?_⟩
  · exact (TaggedSet.mem_bucket_loadAll h.distinct).mpr ⟨e, he, rfl, hki⟩
  · obtain ⟨e, he, hb, hki⟩ := (TaggedSet.mem_bucket_loadAll h.distinct).mp hki
    obtain ⟨c, hc, hce, hsub⟩ := h.origin e he
    exact ⟨c, hc, hce.trans hb, hsub ki hki⟩

section Misread

/-- A count whose top byte is not zero is over the loader's limit. -/
theorem readHeader_of_top_byte {pre rest : List UInt8} {b : UInt8} (hpre : pre.length = 35)
    (hb : b ≠ 0) : readHeader (pre ++ b :: rest) = none := by
  obtain ⟨blockHash, low, rfl⟩ : ∃ (blockHash : BlockHash) (low : Bytes 3),
      pre = blockHash.toList ++ low.toList :=
    ⟨⟨pre.take 32, by simp [hpre]⟩, ⟨pre.drop 32, by simp [hpre]⟩,
      (take_append_drop 32 pre).symm⟩
  obtain ⟨le, hle⟩ : ∃ le : Bytes 4, le.toList = low.toList ++ [b] :=
    ⟨⟨low.toList ++ [b], by simp⟩, rfl⟩
  have hsplit : blockHash.toList ++ low.toList ++ b :: rest =
      blockHash.toList ++ le.toList ++ rest := by simp [hle]
  have hlarge : maxEntryImages < leValue (low.toList ++ [b]) := by
    have hpos : 0 < b.toNat := Nat.pos_of_ne_zero fun h => hb (UInt8.toNat_inj.mp h)
    obtain ⟨l, hl⟩ := low
    obtain ⟨x, y, z, rfl⟩ := length_eq_three.mp hl
    simp only [List.Vector.toList, cons_append, nil_append, leValue, maxEntryImages]
    omega
  rw [hsplit, readHeader_append, hle, if_pos hlarge]

theorem bucket_loadImages {blockHash' : BlockHash} (hne : blockHash' ≠ blockHash) (n : ℕ)
    (bytes : List UInt8) (store : KeyImages) :
    (loadImages blockHash n bytes store).1.bucket blockHash' = store.bucket blockHash' := by
  induction n generalizing bytes store with
  | zero => rfl
  | succ n ih =>
    unfold loadImages
    split
    · rfl
    · rw [ih, TaggedSet.bucket, TaggedSet.getElem?_insertInto,
        if_neg (fun h => hne h.1.symm), TaggedSet.bucket]

theorem rest_of_loadImages {n : ℕ} {bytes rest : List UInt8} {store : KeyImages}
    (h : (loadImages blockHash n bytes store).2 = some rest) :
    rest = bytes.drop (kKISize * n) ∧ kKISize * n ≤ bytes.length := by
  induction n generalizing bytes store with
  | zero =>
    simp only [loadImages, Option.some.injEq] at h
    simp [h]
  | succ n ih =>
    unfold loadImages at h
    split at h
    · contradiction
    · rename_i ki bytes' hread
      obtain ⟨rfl, hle⟩ := ih h
      have hbytes := eq_append_of_readBytes hread
      have hlen : (ki.toList).length = kKISize := ki.toList_length
      rw [hbytes, length_append, hlen, Nat.mul_add_one]
      refine ⟨?_, by omega⟩
      rw [Nat.add_comm, ← drop_drop, drop_left' hlen]

theorem exists_split_at {l : List UInt8} {n : ℕ} (h : n < l.length) :
    ∃ pre b post, l = pre ++ b :: post ∧ pre.length = n ∧ b ∈ l := by
  refine ⟨l.take n, l[n], l.drop (n + 1), ?_, by simp [Nat.le_of_lt h], getElem_mem h⟩
  rw [← drop_eq_getElem_cons h, take_append_drop]

variable {blockHash blockHash' : BlockHash} {ki' : Point}

private theorem writeEntry_singleton (blockHash : BlockHash) (ki : Point) :
    writeEntry blockHash [ki] = blockHash.toList ++ 1 :: 0 :: 0 :: 0 :: ki.toList := by
  have hcount : (leBlock 4 1).toList = [1, 0, 0, 0] := by decide
  simp [writeEntry, imageBytes, hcount]

/-- Behind three to thirty-five bytes of a torn entry the top byte of the count is a byte of
the next entry's hash, or its own count. -/
theorem readHeader_behind_header {torn : List UInt8} (hlow : 3 ≤ torn.length)
    (hhigh : torn.length < 36) (hhash : ∀ b ∈ blockHash'.toList, b ≠ 0) (ki' : Point) :
    readHeader (torn ++ writeEntry blockHash' [ki']) = none := by
  rw [writeEntry_singleton]
  have hlen : blockHash'.toList.length = 32 := blockHash'.toList_length
  by_cases h3 : torn.length = 3
  · rw [← append_assoc]
    exact readHeader_of_top_byte (by rw [length_append, hlen, h3]) (by decide)
  · obtain ⟨pre, b, post, hsplit, hpre, hb⟩ :=
      @exists_split_at blockHash'.toList (35 - torn.length) (by omega)
    rw [hsplit, append_assoc, ← append_assoc, cons_append]
    exact readHeader_of_top_byte (by rw [length_append, hpre]; omega) (hhash b hb)

/-- Behind one or two bytes the loader reads a single shifted image, which starts with a zero
from the count. -/
theorem loadV2_behind_short {torn : List UInt8} (hlow : 0 < torn.length) (hhigh : torn.length < 3)
    (store : KeyImages) :
    ∃ (b : BlockHash) (shifted : Point), shifted.toList.head? = some 0 ∧
      loadV2 (torn ++ writeEntry blockHash' [ki']) store = store.addAll b [shifted] := by
  obtain ⟨hash₁, hash₂, hhash, hhash₁⟩ : ∃ hash₁ hash₂, blockHash'.toList = hash₁ ++ hash₂ ∧
      hash₁.length = 32 - torn.length :=
    ⟨blockHash'.toList.take (32 - torn.length), blockHash'.toList.drop (32 - torn.length),
      (take_append_drop _ _).symm, by simp⟩
  have hhash₂ : hash₂.length = torn.length := by
    have hlen : blockHash'.toList.length = 32 := blockHash'.toList_length
    rw [hhash, length_append] at hlen
    omega
  obtain ⟨b, hb⟩ : ∃ b : BlockHash, b.toList = torn ++ hash₁ :=
    ⟨⟨torn ++ hash₁, by rw [length_append]; omega⟩, rfl⟩
  have hki : ki'.toList.length = 33 := ki'.toList_length
  obtain ⟨shifted, hshifted⟩ : ∃ shifted : Point, shifted.toList =
      List.replicate torn.length 0 ++ ki'.toList.take (33 - torn.length) :=
    ⟨⟨List.replicate torn.length 0 ++ ki'.toList.take (33 - torn.length), by
      rw [length_append, length_replicate, length_take, hki, kKISize]; omega⟩, rfl⟩
  obtain ⟨le, hle⟩ : ∃ le : Bytes 4,
      le.toList = hash₂ ++ 1 :: List.replicate (3 - torn.length) 0 :=
    ⟨⟨hash₂ ++ 1 :: List.replicate (3 - torn.length) 0, by simp; omega⟩, rfl⟩
  refine ⟨b, shifted, ?_, ?_⟩
  · rw [hshifted]
    obtain ⟨m, hm⟩ := Nat.exists_eq_succ_of_ne_zero (Nat.ne_of_gt hlow)
    simp [hm, replicate_succ]
  · have hstream : torn ++ writeEntry blockHash' [ki'] = b.toList ++ le.toList ++
        (imageBytes [shifted] ++ ki'.toList.drop (33 - torn.length)) := by
      rw [writeEntry_singleton, hhash, hb, hle, imageBytes, flatMap_singleton, hshifted]
      simp only [append_assoc, take_append_drop, cons_append]
      congr 4
      have : torn.length = 1 ∨ torn.length = 2 := by omega
      rcases this with h | h <;> rw [h] <;> rfl
    have hcount : 1 < leValue le.toList ∧ leValue le.toList ≤ maxEntryImages := by
      rw [hle]
      have : torn.length = 1 ∨ torn.length = 2 := by omega
      rcases this with h | h
      · obtain ⟨x, rfl⟩ := length_eq_one_iff.mp (hhash₂.trans h)
        have := x.toNat_lt
        simp only [h, cons_append, nil_append, leValue, maxEntryImages]
        simp [leValue]
        omega
      · obtain ⟨x, y, rfl⟩ := length_eq_two.mp (hhash₂.trans h)
        have := x.toNat_lt
        have := y.toNat_lt
        simp only [h, cons_append, nil_append, leValue, maxEntryImages]
        simp [leValue]
        omega
    rw [hstream, loadV2_of_readHeader (readHeader_append b le _ |>.trans
      (if_neg (Nat.not_lt.mpr hcount.2))), loadImages_short b [shifted] _ _ _ _ hcount.1]
    · rfl
    · rw [length_drop, hki, kKISize]
      omega

/-- Behind a torn entry with its header whole, the loader takes images from the next entry and
stops at once after the last of them. -/
theorem bucket_behind_images {n : ℕ} {torn : List UInt8} (hsize : n ≤ maxEntryImages)
    (htorn : torn.length < kKISize * n) (hne : blockHash' ≠ blockHash)
    (hki : ∀ b ∈ ki'.toList, b ≠ 0) (store : KeyImages) :
    (loadV2 (blockHash.toList ++ (leBlock 4 n).toList ++ (torn ++ writeEntry blockHash' [ki']))
      store).bucket blockHash' = store.bucket blockHash' := by
  have hbucket := bucket_loadImages hne n (torn ++ writeEntry blockHash' [ki'])
    (store.touch blockHash)
  have htouch : (store.touch blockHash).bucket blockHash' = store.bucket blockHash' := by
    rw [TaggedSet.bucket, TaggedSet.getElem?_touch, if_neg (Ne.symm hne), TaggedSet.bucket]
  rw [loadV2_of_readHeader (readHeader_writeEntry blockHash n _ hsize)]
  cases hload : loadImages blockHash n (torn ++ writeEntry blockHash' [ki'])
      (store.touch blockHash) with
  | mk store' rest =>
    rw [hload] at hbucket
    cases rest with
    | none => exact hbucket.trans htouch
    | some rest =>
      obtain ⟨hrest, hle⟩ := rest_of_loadImages (congrArg Prod.snd hload)
      rw [drop_append, drop_eq_nil_of_le (Nat.le_of_lt htorn), nil_append] at hrest
      simp only [length_append, writeEntry_length, length_singleton] at hle
      have hstop : readHeader rest = none := by
        by_cases hshort : rest.length < 36
        · exact readHeader_eq_none hshort
        · have hlen : rest.length = 69 - (kKISize * n - torn.length) := by
            rw [hrest, length_drop, writeEntry_length, length_singleton]
            rfl
          have hk : ki'.toList.length = 33 := ki'.toList_length
          obtain ⟨pre, b, post, hsplit, hpre, hb⟩ :=
            @exists_split_at ki'.toList (kKISize * n - torn.length - 1) (by omega)
          have hhead : (blockHash'.toList ++ 1 :: 0 :: 0 :: 0 :: pre).length =
              kKISize * n - torn.length + 35 := by
            simp only [length_append, blockHash'.toList_length, length_cons, hpre]
            omega
          have hentry : writeEntry blockHash' [ki'] =
              (blockHash'.toList ++ 1 :: 0 :: 0 :: 0 :: pre) ++ b :: post := by
            rw [writeEntry_singleton, hsplit]
            simp
          rw [hrest, hentry, drop_append_of_le_length (by omega)]
          exact readHeader_of_top_byte (by rw [length_drop, hhead]; omega) (hki b hb)
      simp only [loadV2_of_readHeader_none hstop]
      exact hbucket.trans htouch

/-- Wherever the earlier entry was cut, the entry behind it is not loaded. -/
theorem not_mem_bucket_behind_torn {added : List Point} {cut : ℕ}
    (hsize : added.length ≤ maxEntryImages) (hpos : 0 < cut)
    (hcut : cut < (writeEntry blockHash added).length) (hne : blockHash' ≠ blockHash)
    (hhash : ∀ b ∈ blockHash'.toList, b ≠ 0) (hki : ∀ b ∈ ki'.toList, b ≠ 0) {store : KeyImages}
    (hstore : store.bucket blockHash' = []) :
    ki' ∉ (loadV2 ((writeEntry blockHash added).take cut ++ writeEntry blockHash' [ki'])
      store).bucket blockHash' := by
  have hlen : ((writeEntry blockHash added).take cut).length = cut := by
    rw [length_take, Nat.min_eq_left (Nat.le_of_lt hcut)]
  by_cases hlong : 36 ≤ cut
  · rw [writeEntry_length] at hcut
    have hheader : (blockHash.toList ++ (leBlock 4 added.length).toList).length = 36 := by
      rw [length_append, blockHash.toList_length, List.Vector.toList_length]
    rw [writeEntry, take_append, hheader, take_of_length_le (by rw [hheader]; omega),
      append_assoc, bucket_behind_images hsize ?_ hne hki store, hstore]
    · exact not_mem_nil
    · exact Nat.lt_of_le_of_lt (length_take_le _ _) (by omega)
  · by_cases hthree : 3 ≤ cut
    · rw [loadV2_of_readHeader_none (readHeader_behind_header (by omega) (by omega) hhash ki'),
        hstore]
      exact not_mem_nil
    · obtain ⟨b, shifted, hzero, hload⟩ := @loadV2_behind_short blockHash' ki'
        ((writeEntry blockHash added).take cut) (by omega) (by omega) store
      rw [hload, TaggedSet.bucket_addAll]
      intro hmem
      have hshifted : ki' = shifted := by
        split at hmem
        · rename_i hb
          rw [hb, hstore, nil_append] at hmem
          exact mem_singleton.mp (mem_newlyAdded.mp hmem).1
        · simp [hstore] at hmem
      rw [← hshifted] at hzero
      exact hki 0 (mem_of_mem_head? hzero) rfl

end Misread

/-- After a crash cut the append of a block's entry, every restart recovers the whole entries as
long as no byte of the torn entry reached the file or nothing is appended behind it. The first
entry appended behind a torn one is lost. -/
theorem recovered_after_torn_append (F : V2File) (blockHash : BlockHash) (kis : List Point)
    (cut : ℕ) (hsize : (F.added kis).length ≤ maxEntryImages)
    (hcut : cut < (writeEntry blockHash (F.added kis)).length) :
    (∀ ops, Always advance Plausible (afterCrash F blockHash kis cut) ops →
      cut = 0 ∨ ¬ Sometime advance Appends (afterCrash F blockHash kis cut) ops →
      Recovered (advance (ops.foldl advance (afterCrash F blockHash kis cut)) .restart)) ∧
    (0 < cut → ∀ blockHash' ki', blockHash' ≠ blockHash →
      (∀ e ∈ F.entries, e.1 ≠ blockHash') →
      (∀ b ∈ blockHash'.toList, b ≠ 0) → (∀ b ∈ ki'.toList, b ≠ 0) →
      ki' ∉ (afterCrash F blockHash kis cut).store.images.members →
      ¬ Recovered ([Later.commit blockHash' [ki'], .restart].foldl advance
        (afterCrash F blockHash kis cut))) := by
  refine ⟨fun ops hops hcond => ?_, fun hpos blockHash' ki' hne hfresh hhash hki hnew hrec => ?_⟩
  · rcases hcond with rfl | hquiet
    · exact (hops.invariant (fun t op hop ht => intact_advance hop ht)
        (intact_afterCrash F blockHash kis)).recovered
    · exact ((not_sometime.mp hquiet).invariant (fun t op hop ht => untouched_advance hop ht)
        untouched_afterCrash).recovered hsize hcut
  · have huntouched := @untouched_afterCrash F blockHash kis cut
    have hadded : newlyAdded (afterCrash F blockHash kis cut).store.images.members [ki'] = [ki'] :=
      newlyAdded_of_fresh (nodup_singleton ki') (by simpa using hnew)
    have hfile : (advance (afterCrash F blockHash kis cut) (.commit blockHash' [ki'])).store.file =
        some (F.bytes ++ ((writeEntry blockHash (F.added kis)).take cut ++
          writeEntry blockHash' [ki'])) := by
      rw [advance, commitBlockKIs_file huntouched.pathSet, hadded, if_neg (by simp),
        huntouched.file]
      simp
    have hempty : F.images.bucket blockHash' = [] := by
      refine eq_nil_iff_forall_not_mem.mpr fun ki hmem => ?_
      obtain ⟨e, he, hb, -⟩ := V2File.mem_bucket.mp hmem
      exact hfresh e he hb
    have hlost := not_mem_bucket_behind_torn hsize hpos hcut hne hhash hki hempty
    have hwritten := hrec.1 (blockHash', [ki']) (by simp [advance, appendedEntries, hadded]) ki'
      (by simp)
    rw [foldl_cons, foldl_cons, foldl_nil, advance, restart_torn F _ hfile]
      at hwritten
    exact hlost hwritten

set_option maxRecDepth 4000 in
/-- The append of a block's entry is cut after ten bytes, the node restarts, connects the block
again and restarts. -/
theorem not_recovered_after_second_append :
    ¬ Recovered ([Later.commit (.replicate 32 1) [.replicate 33 2],
      .restart].foldl advance (afterCrash ⟨[], by simp, by simp⟩ (.replicate 32 1)
        [.replicate 33 2] 10)) := by
  intro h
  have hlost := h.1 (.replicate 32 1, [.replicate 33 2])
    (mem_of_getLast? rfl) (.replicate 33 2) (mem_singleton.mpr rfl)
  revert hlost
  decide +kernel

/-- A file with the entry of one block. -/
def sampleFile : V2File :=
  ⟨[(.replicate 32 5, [.replicate 33 6])], by decide, by decide⟩

set_option maxRecDepth 4000 in
theorem recovered_after_torn_append_at_ten :
    Recovered (advance ([Later.restart].foldl advance (afterCrash sampleFile
      (.replicate 32 1) [.replicate 33 2] 10)) .restart) ∧
    ¬ Recovered ([Later.commit (.replicate 32 3) [.replicate 33 4],
      .restart].foldl advance (afterCrash sampleFile (.replicate 32 1)
        [.replicate 33 2] 10)) :=
  ⟨(recovered_after_torn_append sampleFile _ _ 10 (by decide) (by decide)).1
      [.restart] (by decide) (.inr (by decide)),
    (recovered_after_torn_append sampleFile _ _ 10 (by decide) (by decide)).2
      (by decide) _ _ (by decide) (by decide)
      (fun _ hb => eq_of_mem_replicate hb ▸ (by decide))
      (fun _ hb => eq_of_mem_replicate hb ▸ (by decide)) (by decide)⟩

end Pricoin.TornAppends
