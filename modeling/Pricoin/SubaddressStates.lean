import Pricoin.RecoveryIndex
import Pricoin.WalletBlobs

/-!
The subaddresses of a wallet. The last index in use is a record of the database, each
label is another, and a copy of both is in memory. An index is handed out when its record is
written, and one that a scan has found paid is noted in memory whether or not it can be
written. The spend points are derived for every index up to a gap beyond the last one, in a
loop whose counter and bound are both of 32 bits.
-/
namespace Pricoin.SubaddressStates

open ByteStreams KeyImageFile DurableRecords StealthScan Transactions List
open WalletBlobs (lockedMessage)
open RecoveryIndex (BlockTree blockRecoveries)

section Records

structure SubaddressState where
  maxUsedIndex : UInt32
  labels : UInt32 → Option (List UInt8)

def kSubaddrStateVer : UInt8 := 0x01

def kSubaddrLabelVer : UInt8 := 0x01

def decodeStateBlob (plain : List UInt8) : Option UInt32 :=
  match plain with
  | [] => none
  | ver :: index =>
    if plain.length ≠ 5 then none
    else if ver ≠ kSubaddrStateVer then none
    else some (UInt32.ofNat (leValue index))

def encodeStateBlob (maxUsedIndex : UInt32) : List UInt8 :=
  kSubaddrStateVer :: leBytes 4 maxUsedIndex.toNat

def decodeLabelBlob : List UInt8 → Option (List UInt8)
  | [] => none
  | ver :: label => if ver ≠ kSubaddrLabelVer then none else some label

def encodeLabelBlob (label : List UInt8) : List UInt8 := kSubaddrLabelVer :: label

theorem decodeStateBlob_encodeStateBlob (maxUsedIndex : UInt32) :
    decodeStateBlob (encodeStateBlob maxUsedIndex) = some maxUsedIndex := by
  have hlt : maxUsedIndex.toNat < 256 ^ 4 := maxUsedIndex.toNat_lt
  simp only [encodeStateBlob, decodeStateBlob, length_cons, leBytes_length]
  rw [leValue_leBytes, Nat.mod_eq_of_lt hlt, UInt32.ofNat_toNat]
  rfl

end Records

section Model

/-- The records in the database: the one of the last index, and the labels by their indices. -/
structure Rows where
  state : Option (List UInt8)
  labels : List (UInt32 × List UInt8)

/-- The records, and the copy in memory if there is one. -/
structure Wallet where
  rows : Rows
  cache : Option SubaddressState

/-- A wallet that has no subaddresses yet. -/
def Wallet.fresh : Wallet := ⟨⟨none, []⟩, none⟩

/-- What a call meets. -/
abbrev Env := RecoveryIndex.Conditions

variable {ι β : Type} (seals : Sealing ι) (lib : ScanLibrary) (id : Identity Point)

/-- A label beyond the recorded index raises it. One that does not decode is passed over. -/
def loadLabel (out : SubaddressState) (row : UInt32 × List UInt8) : SubaddressState :=
  match (seals.decrypt row.2).bind decodeLabelBlob with
  | none => out
  | some label =>
    { maxUsedIndex := if row.1 > out.maxUsedIndex then row.1 else out.maxUsedIndex
      labels := Function.update out.labels row.1 (some label) }

def loadState (blob : Option (List UInt8)) : SubaddressState :=
  ⟨((blob.bind seals.decrypt).bind decodeStateBlob).getD 0, fun _ => none⟩

/-- Nothing when there is a record that cannot be decrypted now. -/
def loadFromDb (env : Env ι) (rows : Rows) : Option SubaddressState :=
  if env.opens = false ∧ (rows.state.isSome ∨ rows.labels ≠ []) then none
  else some (rows.labels.foldl (loadLabel seals) (loadState seals rows.state))

def overwriteStateCache (w : Wallet) (st : SubaddressState) : Wallet := { w with cache := some st }

def loadStateCached (env : Env ι) (w : Wallet) : Option (SubaddressState × Wallet) :=
  match w.cache with
  | some st => some (st, w)
  | none => (loadFromDb seals env w.rows).map fun st => (st, overwriteStateCache w st)

def loadSubaddressState (env : Env ι) (w : Wallet) : Option (SubaddressState × Wallet) :=
  loadStateCached seals env w

/-- The database after the write of the last index, if it can be encrypted and written. -/
def writeState (env : Env ι) (index : UInt32) (w : Wallet) : Option Wallet :=
  match env.seed with
  | none => none
  | some seed =>
    let blob := seals.encrypt seed (encodeStateBlob index)
    if env.stateWrites index.toNat then some { w with rows := { w.rows with state := some blob } }
    else none

def writeLabel (env : Env ι) (index : UInt32) (label : List UInt8) (w : Wallet) : Option Wallet :=
  match env.seed with
  | none => none
  | some seed =>
    let labels := writeRow index (seals.encrypt seed (encodeLabelBlob label)) w.rows.labels
    if env.labelWrites then some { w with rows := { w.rows with labels } } else none

/-- The index that is handed out, with its keys. -/
def allocateNextSubaddress (env : Env ι) (label : List UInt8) (w : Wallet) :
    Except String (UInt32 × Subaddress) × Wallet :=
  if env.identity = false then (.error lockedMessage, w)
  else match loadStateCached seals env w with
    | none => (.error lockedMessage, w)
    | some (st, w) =>
      let newIndex := st.maxUsedIndex + 1
      if newIndex = 0 then (.error "subaddress index overflow", w)
      else match lib.deriveSubaddress id.view id.spend newIndex.toNat with
        | none => (.error "subaddress derivation failed", w)
        | some sub =>
          let updated := { st with maxUsedIndex := newIndex }
          match writeState seals env newIndex w with
          | none => (.error "failed to persist subaddress state", w)
          | some w =>
            if label = [] then (.ok (newIndex, sub), overwriteStateCache w updated)
            else match writeLabel seals env newIndex label w with
              | none => (.error "failed to persist subaddress label", w)
              | some w =>
                (.ok (newIndex, sub), overwriteStateCache w
                  { updated with labels := Function.update updated.labels newIndex (some label) })

/-- An empty label is erased, in memory even when it stays in the database. -/
def setSubaddressLabel (env : Env ι) (index : UInt32) (label : List UInt8) (w : Wallet) :
    Except String Bool × Wallet :=
  if index = 0 then (.ok false, w)
  else match loadStateCached seals env w with
    | none => (.error lockedMessage, w)
    | some (st, w) =>
      if index > st.maxUsedIndex then (.ok false, w)
      else if label = [] then
        let labels := w.rows.labels.filter fun row => row.1 ≠ index
        let w := if env.labelWrites then { w with rows := { w.rows with labels } } else w
        (.ok true,
          overwriteStateCache w { st with labels := Function.update st.labels index none })
      else match writeLabel seals env index label w with
        | none => (.ok false, w)
        | some w =>
          (.ok true,
            overwriteStateCache w
              { st with labels := Function.update st.labels index (some label) })

/-- What is in memory changes whether or not the record is written. -/
def noteSubaddressDiscovered (env : Env ι) (discovered : UInt32) (w : Wallet) :
    Except String Unit × Wallet :=
  match loadStateCached seals env w with
  | none => (.error lockedMessage, w)
  | some (st, w) =>
    if discovered ≤ st.maxUsedIndex then (.ok (), w)
    else
      (.ok (), overwriteStateCache ((writeState seals env discovered w).getD w)
        { st with maxUsedIndex := discovered })

end Model

section Lookup

variable (lib : ScanLibrary) (id : Identity Point)

/-- The loop `for (uint32_t i = first; i <= cap; ++i)` with as many turns as there is fuel. -/
def forLoop {α : Type} (cap : UInt32) (body : α → UInt32 → α) : ℕ → UInt32 → α → Option α
  | 0, _, _ => none
  | fuel + 1, i, a => if i ≤ cap then forLoop cap body fuel (i + 1) (body a i) else some a

/-- The bound of the loop. The sum is one of 64 bits and is cut off at the largest index. -/
def lookupCap (maxUsedIndex : UInt32) : UInt32 :=
  let high : UInt64 := maxUsedIndex.toUInt64 + UInt64.ofNat kSubaddressGapLimit
  if high > 0xffffffff then 0xffffffff else high.toUInt32

/-- A turn of the loop, with the indices that were visited. -/
def lookupTurn (s : List UInt32 × SubaddressLookup) (i : UInt32) : List UInt32 × SubaddressLookup :=
  (s.1 ++ [i], addSubaddress lib id s.2 i.toNat)

def masterLookup : SubaddressLookup :=
  fun point => if point = id.publicAddress.spend then some ⟨0, id.spend⟩ else none

/-- The lookup of `BuildSubaddressLookup` and the indices that its loop visits, if the loop ends
within the fuel. -/
def buildLookup (maxUsedIndex : UInt32) (fuel : ℕ) : Option (List UInt32 × SubaddressLookup) :=
  forLoop (lookupCap maxUsedIndex) (lookupTurn lib id) fuel 1 ([], masterLookup id)

theorem toNat_lookupCap (maxUsedIndex : UInt32) :
    (lookupCap maxUsedIndex).toNat =
      min (maxUsedIndex.toNat + kSubaddressGapLimit) (2 ^ 32 - 1) := by
  have hlt := maxUsedIndex.toNat_lt
  have hsum : (maxUsedIndex.toUInt64 + UInt64.ofNat kSubaddressGapLimit).toNat =
      maxUsedIndex.toNat + kSubaddressGapLimit := by
    rw [UInt64.toNat_add, UInt32.toNat_toUInt64, UInt64.toNat_ofNat']
    simp only [kSubaddressGapLimit]
    omega
  unfold lookupCap
  dsimp only
  split
  · rename_i hhigh
    rw [gt_iff_lt, UInt64.lt_iff_toNat_lt, hsum] at hhigh
    change 4294967295 < _ at hhigh
    change 4294967295 = _
    omega
  · rename_i hlow
    rw [gt_iff_lt, UInt64.lt_iff_toNat_lt, hsum] at hlow
    change ¬ 4294967295 < _ at hlow
    rw [UInt64.toNat_toUInt32, hsum]
    omega

variable {α : Type} {cap : UInt32} (body : α → UInt32 → α)

/-- Below the largest index the counter runs up to the bound and passes it. -/
theorem forLoop_eq (hcap : cap.toNat < 2 ^ 32 - 1) (d : ℕ) (i : UInt32) (a : α)
    (hd : i.toNat + d = cap.toNat + 1) :
    forLoop cap body (d + 1) i a =
      some (((List.range' i.toNat d).map UInt32.ofNat).foldl body a) := by
  induction d generalizing i a with
  | zero =>
    have hstop : ¬ i ≤ cap := by
      rw [UInt32.le_iff_toNat_le]
      omega
    rw [forLoop, if_neg hstop]
    rfl
  | succ d ih =>
    have hgo : i ≤ cap := by
      rw [UInt32.le_iff_toNat_le]
      omega
    have hnext : (i + 1).toNat = i.toNat + 1 := by
      rw [UInt32.toNat_add]
      change (i.toNat + 1) % 2 ^ 32 = i.toNat + 1
      omega
    rw [forLoop, if_pos hgo, ih (i + 1) (body a i) (by omega), hnext, range'_succ,
      map_cons, foldl_cons, UInt32.ofNat_toNat]

/-- At the largest index the counter never passes the bound. -/
theorem forLoop_eq_none (hcap : 2 ^ 32 - 1 ≤ cap.toNat) (fuel : ℕ) (i : UInt32) (a : α) :
    forLoop cap body fuel i a = none := by
  induction fuel generalizing i a with
  | zero => rfl
  | succ fuel ih =>
    have hgo : i ≤ cap := by
      have hlt := i.toNat_lt
      rw [UInt32.le_iff_toNat_le]
      omega
    rw [forLoop, if_pos hgo, ih]

variable {lib id}

theorem foldl_lookupTurn (is : List UInt32) (visited : List UInt32) (lookup : SubaddressLookup) :
    is.foldl (lookupTurn lib id) (visited, lookup) =
      (visited ++ is, (is.map UInt32.toNat).foldl (addSubaddress lib id) lookup) := by
  induction is generalizing visited lookup with
  | nil => simp
  | cons i is ih => simp [lookupTurn, ih]

theorem map_toNat_range' {n : ℕ} (hn : n < 2 ^ 32) :
    ((List.range' 1 n).map UInt32.ofNat).map UInt32.toNat = List.range' 1 n := by
  rw [map_map]
  refine (map_congr_left fun i hi => ?_).trans (map_id _)
  obtain ⟨hle, hlt⟩ := mem_range'_1.mp hi
  exact UInt32.toNat_ofNat_of_lt' (by simp only [UInt32.size]; omega)

/-- When the loop ends, it has visited every index up to the bound in turn and the lookup is the
one over all of them. -/
theorem buildLookup_eq {maxUsedIndex : UInt32}
    (hlow : maxUsedIndex.toNat + kSubaddressGapLimit < 2 ^ 32 - 1) :
    ∃ visited, buildLookup lib id maxUsedIndex (maxUsedIndex.toNat + kSubaddressGapLimit + 1) =
        some (visited, buildSubaddressLookup lib id maxUsedIndex.toNat) ∧
      visited.map UInt32.toNat =
        List.range' 1 (min (maxUsedIndex.toNat + kSubaddressGapLimit) (2 ^ 32 - 1)) := by
  have hcap := toNat_lookupCap maxUsedIndex
  have hmin : min (maxUsedIndex.toNat + kSubaddressGapLimit) (2 ^ 32 - 1) =
      maxUsedIndex.toNat + kSubaddressGapLimit := Nat.min_eq_left hlow.le
  rw [hmin] at hcap ⊢
  refine ⟨(List.range' 1 (maxUsedIndex.toNat + kSubaddressGapLimit)).map UInt32.ofNat, ?_,
    map_toNat_range' (by omega)⟩
  rw [buildLookup, forLoop_eq _ (by omega) _ 1 _ (by rw [hcap]; exact Nat.add_comm _ _)]
  change some (((List.range' 1 _).map UInt32.ofNat).foldl (lookupTurn lib id) _) = _
  rw [foldl_lookupTurn, map_toNat_range' (by omega), nil_append, buildSubaddressLookup, hmin]
  rfl

/-- For every state that can be loaded, the loop ends after a visit to each index up to the bound
just when the bound is below the largest index. -/
theorem lookup_ends_iff {ι : Type} (seals : Sealing ι) (lib : ScanLibrary) (id : Identity Point)
    (env : Env ι) (w w' : Wallet) (st : SubaddressState) :
    loadSubaddressState seals env w = some (st, w') →
      ((∃ fuel visited lookup,
          buildLookup lib id st.maxUsedIndex fuel = some (visited, lookup) ∧
          visited.map UInt32.toNat =
            List.range' 1 (min (st.maxUsedIndex.toNat + kSubaddressGapLimit) (2 ^ 32 - 1))) ↔
        st.maxUsedIndex.toNat + kSubaddressGapLimit < 2 ^ 32 - 1) := by
  intro _
  constructor
  · rintro ⟨fuel, visited, lookup, hends, -⟩
    by_contra hhigh
    have hcap := toNat_lookupCap st.maxUsedIndex
    rw [buildLookup, forLoop_eq_none _ (by omega)] at hends
    cases hends
  · intro hlow
    obtain ⟨visited, hends, hvisited⟩ := @buildLookup_eq lib id _ hlow
    exact ⟨_, visited, _, hends, hvisited⟩

/-- A wallet with a record of the last index and nothing in memory. -/
def recordedWallet (maxUsedIndex : UInt32) : Wallet :=
  ⟨⟨some (encodeStateBlob maxUsedIndex), []⟩, none⟩

theorem load_recordedWallet (maxUsedIndex : UInt32) :
    (loadSubaddressState plainSealing RecoveryIndex.calm (recordedWallet maxUsedIndex)).map
      (fun p => p.1.maxUsedIndex) = some maxUsedIndex :=
  congrArg (fun n => some (Option.getD n 0)) (decodeStateBlob_encodeStateBlob maxUsedIndex)

/-- With the index 2^32 - 101 in the record, the loop has no last turn. -/
theorem lookup_runs_on :
    (loadSubaddressState plainSealing RecoveryIndex.calm (recordedWallet 4294967195)).map
        (fun p => p.1.maxUsedIndex) = some 4294967195 ∧
      ∀ fuel, buildLookup RecoveryIndex.sampleLibrary RecoveryIndex.sampleIdentity 4294967195
        fuel = none :=
  ⟨load_recordedWallet _, fun _ => forLoop_eq_none _ (by decide) _ _ _⟩

theorem lookup_ends_recorded :
    ∃ fuel visited lookup,
      buildLookup RecoveryIndex.sampleLibrary RecoveryIndex.sampleIdentity 7 fuel =
          some (visited, lookup) ∧
        visited.map UInt32.toNat = List.range' 1 107 := by
  obtain ⟨⟨st, w⟩, hload, hst⟩ := Option.map_eq_some_iff.mp (load_recordedWallet 7)
  obtain ⟨fuel, visited, lookup, hends, hvisited⟩ :=
    (lookup_ends_iff _ RecoveryIndex.sampleLibrary RecoveryIndex.sampleIdentity _ _ _ _ hload).mpr
      (by rw [hst]; decide)
  dsimp only at hst
  rw [hst] at hends hvisited
  exact ⟨fuel, visited, lookup, hends, hvisited⟩

end Lookup

end Pricoin.SubaddressStates
