import Pricoin.ByteStreams
import Pricoin.TaggedSets

/-!
The persistent key-image file. A v2 file is the magic followed by one entry for
each block: the block hash, a 32-bit little-endian count and that many 33-byte
key images. The loader stops at the first entry that it cannot read whole. A
file that does not start with the magic is a v1 file, a plain run of key images.
-/
namespace Pricoin.KeyImageFile

open ByteStreams TaggedSets List Option

variable {blockHash : BlockHash} {bytes : List UInt8}

abbrev kKISize : ℕ := 33

abbrev Point := Bytes kKISize

abbrev Uint256 := Bytes 32

abbrev BlockHash := Uint256

instance transCmp_uint256 : Std.TransCmp (@compareBytes 32) := inferInstance

instance lawfulBEq_uint256 : LawfulBEq Uint256 := inferInstance

/-- The global store: `g_key_images` with `g_kis_by_block`. -/
abbrev KeyImages := TaggedSet BlockHash Point compareBytes

def kKIFileMagic : List UInt8 := [0x50, 0x4b, 0x49, 0x01]

def nullHash : BlockHash := .replicate 32 0

/-- The largest entry that the loader takes. -/
def maxEntryImages : ℕ := 1000000

def imageBytes (kis : List Point) : List UInt8 := kis.flatMap (fun ki => ki.toList)

/-- The bytes of one block's entry, the same in `WriteEntry` and `AppendBlockEntry`. -/
def writeEntry (blockHash : BlockHash) (kis : List Point) : List UInt8 :=
  blockHash.toList ++ (leBlock 4 kis.length).toList ++ imageBytes kis

def writeEntries (es : List (BlockHash × List Point)) : List UInt8 :=
  es.flatMap (fun e => writeEntry e.1 e.2)

/-- Read `n` key images into a block's bucket. There is no rest after a short read. -/
def loadImages (blockHash : BlockHash) :
    ℕ → List UInt8 → KeyImages → KeyImages × Option (List UInt8)
  | 0, bytes, store => (store, some bytes)
  | n + 1, bytes, store =>
    match readBytes kKISize bytes with
    | none => (store, none)
    | some (ki, rest) => loadImages blockHash n rest (store.insertInto blockHash ki)

/-- The hash and count in front of an entry. A short read or an implausible count ends the
load. -/
def readHeader (bytes : List UInt8) : Option (BlockHash × ℕ × List UInt8) := do
  let (blockHash, bytes) ← readBytes 32 bytes
  let (le, bytes) ← readBytes 4 bytes
  if maxEntryImages < leValue le.toList then none
  else some (blockHash, leValue le.toList, bytes)

/-- The entry loop of a v2 file. Each turn takes at least 36 bytes, so the length of the
stream is fuel enough. -/
def loadEntries : ℕ → List UInt8 → KeyImages → KeyImages
  | 0, _, store => store
  | fuel + 1, bytes, store =>
    match readHeader bytes with
    | none => store
    | some (blockHash, n, bytes) =>
      match loadImages blockHash n bytes (store.touch blockHash) with
      | (store, none) => store
      | (store, some rest) => loadEntries fuel rest store

/-- The loop of a v1 file, whose images go under the null hash. -/
def loadLegacy : ℕ → List UInt8 → KeyImages → KeyImages
  | 0, _, store => store
  | fuel + 1, bytes, store =>
    match readBytes kKISize bytes with
    | none => store
    | some (ki, rest) => loadLegacy fuel rest (store.insertInto nullHash ki)

theorem imageBytes_length (kis : List Point) : (imageBytes kis).length = kKISize * kis.length := by
  induction kis with
  | nil => rfl
  | cons ki rest ih =>
    simp only [imageBytes, flatMap_cons, length_append, length_cons] at ih ⊢
    rw [ih, ki.toList_length, Nat.mul_add_one, Nat.add_comm]

theorem writeEntry_length (blockHash : BlockHash) (kis : List Point) :
    (writeEntry blockHash kis).length = 36 + kKISize * kis.length := by
  simp only [writeEntry, length_append, List.Vector.toList_length, imageBytes_length]

theorem loadImages_imageBytes (blockHash : BlockHash) (kis : List Point) (rest : List UInt8)
    (store : KeyImages) :
    loadImages blockHash kis.length (imageBytes kis ++ rest) store =
      (kis.foldl (fun t ki => t.insertInto blockHash ki) store, some rest) := by
  induction kis generalizing store with
  | nil => rfl
  | cons ki kis ih =>
    have hbytes : imageBytes (ki :: kis) ++ rest = ki.toList ++ (imageBytes kis ++ rest) := by
      simp [imageBytes]
    rw [length_cons, loadImages, hbytes, readBytes_append]
    exact ih (store.insertInto blockHash ki)

/-- Reading past the end keeps the images that were there whole. -/
theorem loadImages_short (blockHash : BlockHash) (kis : List Point) (tail : List UInt8) (n : ℕ)
    (store : KeyImages) (htail : tail.length < kKISize) (hn : kis.length < n) :
    loadImages blockHash n (imageBytes kis ++ tail) store =
      (kis.foldl (fun t ki => t.insertInto blockHash ki) store, none) := by
  induction kis generalizing n store with
  | nil =>
    obtain ⟨m, rfl⟩ := Nat.exists_eq_succ_of_ne_zero (Nat.ne_of_gt hn)
    simp [loadImages, imageBytes, readBytes_eq_none htail]
  | cons ki kis ih =>
    obtain ⟨m, rfl⟩ := Nat.exists_eq_succ_of_ne_zero (Nat.ne_of_gt (Nat.zero_lt_of_lt hn))
    have hbytes : imageBytes (ki :: kis) ++ tail = ki.toList ++ (imageBytes kis ++ tail) := by
      simp [imageBytes]
    rw [loadImages, hbytes, readBytes_append]
    exact ih m (store.insertInto blockHash ki) (Nat.lt_of_succ_lt_succ hn)

theorem length_le_of_loadImages {n : ℕ} {rest : List UInt8} {store store' : KeyImages}
    (h : loadImages blockHash n bytes store = (store', some rest)) :
    rest.length ≤ bytes.length := by
  induction n generalizing bytes store with
  | zero =>
    simp only [loadImages, Prod.mk.injEq, some.injEq] at h
    exact Nat.le_of_eq (congrArg List.length h.2.symm)
  | succ n ih =>
    unfold loadImages at h
    split at h
    · simp at h
    · rename_i hread
      have := length_of_readBytes hread
      have := ih h
      omega

theorem readHeader_append (blockHash : BlockHash) (le : Bytes 4) (rest : List UInt8) :
    readHeader (blockHash.toList ++ le.toList ++ rest) =
      if maxEntryImages < leValue le.toList then none
      else some (blockHash, leValue le.toList, rest) := by
  simp [readHeader, readBytes_append]

theorem readHeader_eq_none (h : bytes.length < 36) : readHeader bytes = none := by
  unfold readHeader
  cases hhash : readBytes 32 bytes with
  | none => rfl
  | some p =>
    have := length_of_readBytes hhash
    simp [readBytes_eq_none (show p.2.length < 4 by omega)]

theorem length_of_readHeader {rest : List UInt8} {n : ℕ}
    (h : readHeader bytes = some (blockHash, n, rest)) : bytes.length = 36 + rest.length := by
  simp only [readHeader, bind_eq_bind, bind_eq_some_iff] at h
  obtain ⟨p, hhash, q, hle, hrest⟩ := h
  have hlen := length_of_readBytes hhash
  have hlen' := length_of_readBytes hle
  split at hrest
  · contradiction
  · simp only [some.injEq, Prod.mk.injEq] at hrest
    rw [← hrest.2.2]
    omega

/-- Fuel beyond the length of the stream changes nothing. -/
theorem loadEntries_fuel {fuel fuel' : ℕ} (h : bytes.length ≤ fuel) (h' : bytes.length ≤ fuel')
    (store : KeyImages) : loadEntries fuel bytes store = loadEntries fuel' bytes store := by
  induction fuel generalizing bytes fuel' store with
  | zero =>
    cases fuel' with
    | zero => rfl
    | succ fuel' => simp [loadEntries, readHeader_eq_none (show bytes.length < 36 by omega)]
  | succ fuel ih =>
    cases fuel' with
    | zero => simp [loadEntries, readHeader_eq_none (show bytes.length < 36 by omega)]
    | succ fuel' =>
      unfold loadEntries
      cases hheader : readHeader bytes with
      | none => rfl
      | some p =>
        obtain ⟨blockHash, n, bytes'⟩ := p
        have hlen := length_of_readHeader hheader
        simp only
        split
        · rfl
        · rename_i hki
          have := length_le_of_loadImages hki
          exact ih (by omega) (by omega) _

/-- Load the entry part of a v2 file. -/
def loadV2 (bytes : List UInt8) (store : KeyImages) : KeyImages :=
  loadEntries bytes.length bytes store

theorem loadV2_of_readHeader_none (h : readHeader bytes = none) (store : KeyImages) :
    loadV2 bytes store = store := by
  unfold loadV2
  cases bytes.length with
  | zero => rfl
  | succ n => simp [loadEntries, h]

/-- One turn of the loop. -/
theorem loadV2_of_readHeader {bytes' : List UInt8} {n : ℕ}
    (h : readHeader bytes = some (blockHash, n, bytes')) (store : KeyImages) :
    loadV2 bytes store =
      match loadImages blockHash n bytes' (store.touch blockHash) with
      | (store, none) => store
      | (store, some rest) => loadV2 rest store := by
  have hlen := length_of_readHeader h
  unfold loadV2
  rw [show bytes.length = (35 + bytes'.length) + 1 by omega, loadEntries, h]
  simp only
  cases hki : loadImages blockHash n bytes' (store.touch blockHash) with
  | mk store' rest =>
    cases rest with
    | none => rfl
    | some rest =>
      have := length_le_of_loadImages hki
      exact loadEntries_fuel (by omega) (Nat.le_refl _) store'

theorem leValue_count {n : ℕ} (h : n ≤ maxEntryImages) : leValue (leBlock 4 n).toList = n :=
  leValue_leBlock (Nat.lt_of_le_of_lt h (by decide))

theorem readHeader_writeEntry (blockHash : BlockHash) (n : ℕ) (rest : List UInt8)
    (h : n ≤ maxEntryImages) :
    readHeader (blockHash.toList ++ (leBlock 4 n).toList ++ rest) = some (blockHash, n, rest) := by
  rw [readHeader_append, leValue_count h, if_neg (Nat.not_lt.mpr h)]

/-- A whole entry is loaded into its bucket and loading goes on behind it. -/
theorem loadV2_writeEntry (blockHash : BlockHash) (kis : List Point) (rest : List UInt8)
    (store : KeyImages) (hsize : kis.length ≤ maxEntryImages) :
    loadV2 (writeEntry blockHash kis ++ rest) store =
      loadV2 rest (store.addAll blockHash kis) := by
  rw [writeEntry, append_assoc,
    loadV2_of_readHeader (readHeader_writeEntry blockHash kis.length _ hsize),
    loadImages_imageBytes]
  rfl

theorem loadV2_writeEntries (es : List (BlockHash × List Point)) (rest : List UInt8)
    (store : KeyImages) (hsize : ∀ e ∈ es, e.2.length ≤ maxEntryImages) :
    loadV2 (writeEntries es ++ rest) store = loadV2 rest (store.loadAll es) := by
  induction es generalizing store with
  | nil => rfl
  | cons e es ih =>
    rw [writeEntries, flatMap_cons, append_assoc,
      loadV2_writeEntry _ _ _ _ (hsize e mem_cons_self)]
    exact ih _ (fun e' he' => hsize e' (mem_cons_of_mem _ he'))

/-- Images loaded from a v1 file stay out of every bucket but the null hash's. -/
theorem bucket_loadLegacy (fuel : ℕ) (bytes : List UInt8) (store : KeyImages) {h : BlockHash}
    (hne : h ≠ nullHash) : (loadLegacy fuel bytes store).bucket h = store.bucket h := by
  induction fuel generalizing bytes store with
  | zero => rfl
  | succ fuel ih =>
    unfold loadLegacy
    split
    · rfl
    · rw [ih, TaggedSet.bucket, TaggedSet.getElem?_insertInto,
        if_neg (fun hk => hne hk.1.symm), TaggedSet.bucket]

end Pricoin.KeyImageFile
