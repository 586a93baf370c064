import Pricoin.SubaddressStates

/-!
Histories of a wallet's subaddresses. Indices are handed out, labelled, noted and found paid
by scans, with any write failing and a restart at any point. No index is handed out that was
handed out before or found paid by a scan, as long as the record is written whenever an index
is noted. A restart after a note that was not written brings the index back.
-/
namespace Pricoin.SubaddressReuse

open ByteStreams KeyImageFile DurableRecords StealthScan Transactions Coins Runs Option List
open SubaddressStates
open RecoveryIndex (BlockTree blockRecoveries)

variable {ι β : Type} {index : UInt32} {h : History}

section Model

variable (crypto : Crypto) (lib : ScanLibrary) (id : Identity Point)
variable (seals : Sealing ι) (T : BlockTree β)

/-- Note what a scan has found, one output after the other. -/
def noteAll (env : Env ι) (found : List UInt32) (w : Wallet) : Wallet :=
  found.foldl (fun w i => (noteSubaddressDiscovered seals env i w).2) w

/-- A pass over blocks that can be read, with the indices that it finds paid. Nothing is reported
when the wallet is locked or the loop that builds the lookup does not end. -/
def recoveryScan (env : Env ι) (blocks : List β) (w : Wallet) : Option (List UInt32) × Wallet :=
  if env.identity = false then (none, w)
  else match loadSubaddressState seals env w with
    | none => (none, w)
    | some (st, w) =>
      if 2 ^ 32 - 1 ≤ st.maxUsedIndex.toNat + kSubaddressGapLimit then (none, w)
      else
        let lookup := buildSubaddressLookup lib id st.maxUsedIndex.toNat
        let found := (blocks.flatMap (blockRecoveries (T := T) crypto lib id lookup)).map
          fun p => UInt32.ofNat p.2.subaddressIndex
        (some found, noteAll seals env found w)

inductive Event (β ι : Type) where
  | allocate (env : Env ι) (label : List UInt8)
  | note (env : Env ι) (discovered : UInt32)
  | setLabel (env : Env ι) (index : UInt32) (label : List UInt8)
  | scan (env : Env ι) (blocks : List β)
  | restart

/-- The wallet, with the indices that were handed out and those that were found paid so far. -/
structure History where
  wallet : Wallet
  allocated : List UInt32
  reported : List UInt32

def History.start : History := ⟨Wallet.fresh, [], []⟩

def advance (h : History) : Event β ι → History
  | .allocate env label =>
    match allocateNextSubaddress seals lib id env label h.wallet with
    | (.ok (index, _), w) => { h with wallet := w, allocated := index :: h.allocated }
    | (.error _, w) => { h with wallet := w }
  | .note env discovered =>
    { h with wallet := (noteSubaddressDiscovered seals env discovered h.wallet).2 }
  | .setLabel env index label =>
    { h with wallet := (setSubaddressLabel seals env index label h.wallet).2 }
  | .scan env blocks =>
    match recoveryScan crypto lib id seals T env blocks h.wallet with
    | (some found, w) => { h with wallet := w, reported := found ++ h.reported }
    | (none, w) => { h with wallet := w }
  | .restart => { h with wallet := { h.wallet with cache := none } }

/-- Whatever is noted in this step is written. -/
def Recorded (_ : History) : Event β ι → Prop
  | .note env _ | .scan env _ => env.seed.isSome ∧ ∀ index, env.stateWrites index = true
  | _ => True

end Model

section Ceiling

variable {crypto : Crypto} {lib : ScanLibrary} {id : Identity Point}
variable {seals : Sealing ι} {T : BlockTree β}

/-- The record in the database has this index. -/
def Holds (seals : Sealing ι) (rows : Rows) (top : UInt32) : Prop :=
  rows.state = none ∧ top = 0 ∨
    ∃ seed, rows.state = some (seals.encrypt seed (encodeStateBlob top))

/-- The last index is this one, in memory or else in the record. The record is never behind, and
no label is beyond the index. -/
structure Stands (seals : Sealing ι) (w : Wallet) (last : UInt32) : Prop where
  record : ∃ top, Holds seals w.rows top ∧ last ≤ top ∧ (w.cache = none → last = top)
  cached : ∀ st, w.cache = some st → st.maxUsedIndex = last
  labels : ∀ row ∈ w.rows.labels, row.1 ≤ last

theorem stands_fresh : Stands seals Wallet.fresh 0 where
  record := ⟨0, .inl ⟨rfl, rfl⟩, UInt32.le_refl 0, fun _ => rfl⟩
  cached _ h := by cases h
  labels _ h := by cases h

theorem maxUsedIndex_loadLabels {rows : List (UInt32 × List UInt8)} {st : SubaddressState}
    (h : ∀ row ∈ rows, row.1 ≤ st.maxUsedIndex) :
    (rows.foldl (loadLabel seals) st).maxUsedIndex = st.maxUsedIndex := by
  induction rows generalizing st with
  | nil => rfl
  | cons row rows ih =>
    have hrow : (loadLabel seals st row).maxUsedIndex = st.maxUsedIndex := by
      unfold loadLabel
      split
      · rfl
      · exact if_neg (UInt32.not_lt.mpr (h row mem_cons_self))
    rw [foldl_cons, ih (fun r hr => hrow ▸ h r (mem_cons_of_mem _ hr)), hrow]

theorem Holds.maxUsedIndex_load {env : Env ι} {rows : Rows} {top : UInt32} {st : SubaddressState}
    (h : Holds seals rows top) (hlabels : ∀ row ∈ rows.labels, row.1 ≤ top)
    (hload : loadFromDb seals env rows = some st) : st.maxUsedIndex = top := by
  have hstate : (loadState seals rows.state).maxUsedIndex = top := by
    rcases h with ⟨hnone, rfl⟩ | ⟨seed, hsome⟩
    · rw [hnone]
      rfl
    · rw [hsome, loadState, bind_some, seals.decrypt_encrypt, bind_some,
        decodeStateBlob_encodeStateBlob]
      rfl
  unfold loadFromDb at hload
  split at hload
  · cases hload
  · obtain rfl := some.inj hload
    rw [maxUsedIndex_loadLabels (fun row hrow => hstate ▸ hlabels row hrow), hstate]

variable {env : Env ι} {w w' : Wallet} {last : UInt32} {st : SubaddressState}

theorem Stands.overwrite (h : Stands seals w last) (hst : st.maxUsedIndex = last) :
    Stands seals (overwriteStateCache w st) last := by
  obtain ⟨top, hholds, hle, -⟩ := h.record
  exact ⟨⟨top, hholds, hle, nofun⟩, fun _ heq => some.inj heq ▸ hst, h.labels⟩

/-- A load gives the last index, and leaves it as it is. -/
theorem Stands.load (h : Stands seals w last)
    (hload : loadStateCached seals env w = some (st, w')) :
    st.maxUsedIndex = last ∧ w'.cache = some st ∧ Stands seals w' last := by
  unfold loadStateCached at hload
  cases hcache : w.cache with
  | some cached =>
    rw [hcache] at hload
    obtain ⟨rfl, rfl⟩ := Prod.mk.inj (some.inj hload)
    exact ⟨h.cached _ hcache, hcache, h⟩
  | none =>
    rw [hcache] at hload
    obtain ⟨fresh, hfresh, heq⟩ := map_eq_some_iff.mp hload
    obtain ⟨rfl, rfl⟩ := Prod.mk.inj heq
    obtain ⟨top, hholds, -, htop⟩ := h.record
    obtain rfl := htop hcache
    have hlast := hholds.maxUsedIndex_load h.labels hfresh
    exact ⟨hlast, rfl, h.overwrite hlast⟩

theorem rows_writeState (hwrite : writeState seals env index w = some w') :
    Holds seals w'.rows index ∧ w'.cache = w.cache ∧ w'.rows.labels = w.rows.labels := by
  unfold writeState at hwrite
  cases hseed : env.seed with
  | none => simp [hseed] at hwrite
  | some seed =>
    simp only [hseed] at hwrite
    split at hwrite
    · obtain rfl := some.inj hwrite
      exact ⟨.inr ⟨seed, rfl⟩, rfl, rfl⟩
    · cases hwrite

theorem rows_writeLabel {label : List UInt8}
    (hwrite : writeLabel seals env index label w = some w') :
    w'.rows.state = w.rows.state ∧ w'.cache = w.cache ∧
      ∀ row ∈ w'.rows.labels, row.1 = index ∨ row ∈ w.rows.labels := by
  unfold writeLabel at hwrite
  cases hseed : env.seed with
  | none => simp [hseed] at hwrite
  | some seed =>
    simp only [hseed] at hwrite
    split at hwrite
    · obtain rfl := some.inj hwrite
      refine ⟨rfl, rfl, fun row hrow => ?_⟩
      rcases mem_cons.mp hrow with rfl | hold
      · exact .inl rfl
      · exact .inr (mem_filter.mp hold).1
    · cases hwrite

/-- A new index that is in the record and then in memory. -/
theorem Stands.raise (hholds : Holds seals w.rows index)
    (hlabels : ∀ row ∈ w.rows.labels, row.1 ≤ index) (hst : st.maxUsedIndex = index) :
    Stands seals (overwriteStateCache w st) index :=
  ⟨⟨index, hholds, UInt32.le_refl _, nofun⟩, fun _ heq => some.inj heq ▸ hst, hlabels⟩

/-- The index after the last one is larger, unless there is none. -/
theorem lt_succ_of_ne_zero {i : UInt32} (h : i + 1 ≠ 0) : i < i + 1 := by
  have hlt := i.toNat_lt
  have hsum : (i + 1).toNat = (i.toNat + 1) % 2 ^ 32 := UInt32.toNat_add i 1
  have hne : (i + 1).toNat ≠ 0 := fun hzero => h (UInt32.toNat_inj.mp hzero)
  rw [UInt32.lt_iff_toNat_lt]
  omega

/-- An index that is handed out is beyond the last one and becomes the last one. A call that
fails leaves the last one. -/
theorem Stands.allocate (h : Stands seals w last) (label : List UInt8) :
    (∀ index sub, allocateNextSubaddress seals lib id env label w = (.ok (index, sub), w') →
      last < index ∧ Stands seals w' index) ∧
    (∀ e, allocateNextSubaddress seals lib id env label w = (.error e, w') →
      Stands seals w' last) := by
  unfold allocateNextSubaddress
  split
  · exact ⟨nofun, fun e heq => (Prod.mk.inj heq).2 ▸ h⟩
  cases hload : loadStateCached seals env w with
  | none => exact ⟨nofun, fun e heq => (Prod.mk.inj heq).2 ▸ h⟩
  | some loaded =>
    obtain ⟨st, w₁⟩ := loaded
    obtain ⟨rfl, hcache₁, h₁⟩ := h.load hload
    dsimp only
    split
    · exact ⟨nofun, fun e heq => (Prod.mk.inj heq).2 ▸ h₁⟩
    rename_i hne
    have hlt := lt_succ_of_ne_zero hne
    have hle := UInt32.le_of_lt hlt
    split
    · exact ⟨nofun, fun e heq => (Prod.mk.inj heq).2 ▸ h₁⟩
    rename_i sub _
    split
    · exact ⟨nofun, fun e heq => (Prod.mk.inj heq).2 ▸ h₁⟩
    rename_i w₂ hstate
    obtain ⟨hholds, hcache, hlabels⟩ := rows_writeState hstate
    have hlabels₂ : ∀ row ∈ w₂.rows.labels, row.1 ≤ st.maxUsedIndex := hlabels ▸ h₁.labels
    split
    · refine ⟨fun index sub heq => ?_, nofun⟩
      obtain ⟨hok, rfl⟩ := Prod.mk.inj heq
      obtain ⟨rfl, -⟩ := Prod.mk.inj (Except.ok.inj hok)
      exact ⟨hlt, .raise hholds (fun row hrow => UInt32.le_trans (hlabels₂ row hrow) hle) rfl⟩
    split
    · -- the record is ahead of the copy, which stays
      refine ⟨nofun, fun e heq => (Prod.mk.inj heq).2 ▸ ?_⟩
      rw [hcache₁] at hcache
      refine ⟨⟨_, hholds, hle, fun hnone => ?_⟩, fun st' hst' => ?_, hlabels₂⟩
      · cases hcache.symm.trans hnone
      · exact h₁.cached st' (hcache₁.trans (hcache.symm.trans hst'))
    · rename_i w₃ hlabel
      obtain ⟨hstate₃, -, hlabels₃⟩ := rows_writeLabel hlabel
      refine ⟨fun index sub heq => ?_, nofun⟩
      obtain ⟨hok, rfl⟩ := Prod.mk.inj heq
      obtain ⟨rfl, -⟩ := Prod.mk.inj (Except.ok.inj hok)
      refine ⟨hlt, .raise ?_ (fun row hrow => ?_) rfl⟩
      · rwa [Holds, hstate₃]
      · rcases hlabels₃ row hrow with heq | hold
        · exact UInt32.le_of_eq heq
        · exact UInt32.le_trans (hlabels₂ row hold) hle

theorem exists_writeState (hseed : env.seed.isSome)
    (hwrites : ∀ index, env.stateWrites index = true)
    (index : UInt32) (w : Wallet) : ∃ w', writeState seals env index w = some w' := by
  obtain ⟨seed, hseed⟩ := isSome_iff_exists.mp hseed
  simp [writeState, hseed, hwrites]

/-- A note that is written raises the last index to what was noted. Only a wallet without a copy
can miss it. -/
theorem Stands.note (h : Stands seals w last) (hseed : env.seed.isSome)
    (hwrites : ∀ index, env.stateWrites index = true) (discovered : UInt32) :
    ∃ last', last ≤ last' ∧ Stands seals (noteSubaddressDiscovered seals env discovered w).2 last' ∧
      (w.cache.isSome → (noteSubaddressDiscovered seals env discovered w).2.cache.isSome ∧
        discovered ≤ last') := by
  unfold noteSubaddressDiscovered
  cases hload : loadStateCached seals env w with
  | none =>
    refine ⟨last, UInt32.le_refl _, h, fun hsome => ?_⟩
    obtain ⟨st, hst⟩ := isSome_iff_exists.mp hsome
    simp [loadStateCached, hst] at hload
  | some loaded =>
    obtain ⟨st, w₁⟩ := loaded
    obtain ⟨rfl, hcache, h₁⟩ := h.load hload
    dsimp only
    split
    · rename_i hle
      exact ⟨_, UInt32.le_refl _, h₁, fun _ => ⟨by rw [hcache]; rfl, hle⟩⟩
    · rename_i hlt
      have hle := UInt32.le_of_lt (UInt32.not_le.mp hlt)
      obtain ⟨w₂, hwrite⟩ := @exists_writeState ι seals env hseed hwrites discovered w₁
      obtain ⟨hholds, -, hlabels⟩ := rows_writeState hwrite
      rw [hwrite]
      refine ⟨discovered, hle, .raise hholds (fun row hrow => ?_) rfl,
        fun _ => ⟨rfl, UInt32.le_refl _⟩⟩
      rw [getD_some, hlabels] at hrow
      exact UInt32.le_trans (h₁.labels row hrow) hle

theorem Stands.noteAll (h : Stands seals w last) (hseed : env.seed.isSome)
    (hwrites : ∀ index, env.stateWrites index = true) (hcache : w.cache.isSome)
    (found : List UInt32) :
    ∃ last', last ≤ last' ∧ Stands seals (noteAll seals env found w) last' ∧
      ∀ i ∈ found, i ≤ last' := by
  induction found generalizing w last with
  | nil => exact ⟨last, UInt32.le_refl _, h, nofun⟩
  | cons i found ih =>
    obtain ⟨next, hnext, hstands, hnoted⟩ := h.note hseed hwrites i
    obtain ⟨hsome, hi⟩ := hnoted hcache
    obtain ⟨last', hle, hlast, hfound⟩ := ih hstands hsome
    refine ⟨last', UInt32.le_trans hnext hle, hlast, fun j hj => ?_⟩
    rcases mem_cons.mp hj with rfl | hrest
    · exact UInt32.le_trans hi hle
    · exact hfound j hrest

theorem Stands.setLabel (h : Stands seals w last) (index : UInt32) (label : List UInt8) :
    Stands seals (setSubaddressLabel seals env index label w).2 last := by
  unfold setSubaddressLabel
  split
  · exact h
  cases hload : loadStateCached seals env w with
  | none => exact h
  | some loaded =>
    obtain ⟨st, w₁⟩ := loaded
    obtain ⟨rfl, hcache, h₁⟩ := h.load hload
    dsimp only
    split
    · exact h₁
    rename_i hindex
    split
    · refine Stands.overwrite ?_ rfl
      split
      · exact ⟨h₁.record, h₁.cached, fun row hrow => h₁.labels row (mem_filter.mp hrow).1⟩
      · exact h₁
    split
    · exact h₁
    · rename_i w₂ hwrite
      obtain ⟨hstate, hcache₂, hlabels⟩ := rows_writeLabel hwrite
      obtain ⟨top, hholds, hle, -⟩ := h₁.record
      refine ⟨⟨top, ?_, hle, nofun⟩, fun st' hst' => ?_, fun row hrow => ?_⟩
      · change Holds seals w₂.rows top
        rwa [Holds, hstate]
      · obtain rfl := some.inj hst'
        rfl
      · rcases hlabels row hrow with heq | hold
        · exact heq ▸ UInt32.not_lt.mp hindex
        · exact h₁.labels row hold

/-- After a restart the last index is the one of the record. -/
theorem Stands.restart (h : Stands seals w last) :
    ∃ last', last ≤ last' ∧ Stands seals { w with cache := none } last' := by
  obtain ⟨top, hholds, hle, -⟩ := h.record
  exact ⟨top, hle, ⟨top, hholds, UInt32.le_refl _, fun _ => rfl⟩, nofun,
    fun row hrow => UInt32.le_trans (h.labels row hrow) hle⟩

end Ceiling

section Histories

variable {crypto : Crypto} {lib : ScanLibrary} {id : Identity Point}
variable {seals : Sealing ι} {T : BlockTree β}

/-- Every index that was handed out or found paid is at most the last one. -/
def Covered (seals : Sealing ι) (h : History) : Prop :=
  ∃ last, Stands seals h.wallet last ∧ ∀ i, i ∈ h.allocated ∨ i ∈ h.reported → i ≤ last

theorem Covered.mono (hcovered : Covered seals h) {w : Wallet}
    (hw : ∀ last, Stands seals h.wallet last → ∃ last', last ≤ last' ∧ Stands seals w last') :
    Covered seals { h with wallet := w } := by
  obtain ⟨last, hlast, hused⟩ := hcovered
  obtain ⟨last', hle, hlast'⟩ := hw last hlast
  exact ⟨last', hlast', fun i hi => UInt32.le_trans (hused i hi) hle⟩

/-- A scan leaves everything that it reports below the last index. -/
theorem Covered.scan (hcovered : Covered seals h) {env : Env ι} (hseed : env.seed.isSome)
    (hwrites : ∀ index, env.stateWrites index = true) (blocks : List β) :
    Covered seals (advance crypto lib id seals T h (.scan env blocks)) := by
  rw [advance, recoveryScan]
  split_ifs with hidentity
  · exact hcovered
  cases hload : loadSubaddressState seals env h.wallet with
  | none => exact hcovered
  | some loaded =>
    obtain ⟨st, w⟩ := loaded
    dsimp only
    split_ifs with hhigh
    · exact hcovered.mono fun last hlast => ⟨last, UInt32.le_refl _, (hlast.load hload).2.2⟩
    · obtain ⟨last, hlast, hused⟩ := hcovered
      obtain ⟨rfl, hcache, hw⟩ := hlast.load hload
      obtain ⟨last', hle, hlast', hfound⟩ := hw.noteAll hseed hwrites (by rw [hcache]; rfl) _
      refine ⟨last', hlast', fun i hi => ?_⟩
      rcases hi with hi | hi
      · exact UInt32.le_trans (hused i (.inl hi)) hle
      · rcases mem_append.mp hi with hnew | hold
        · exact hfound i hnew
        · exact UInt32.le_trans (hused i (.inr hold)) hle

theorem Covered.allocate (hcovered : Covered seals h) (env : Env ι) (label : List UInt8) :
    Covered seals (advance crypto lib id seals T h (.allocate env label)) := by
  obtain ⟨last, hlast, hused⟩ := hcovered
  rw [advance]
  split
  · rename_i index sub w heq
    obtain ⟨hlt, hw⟩ := (hlast.allocate label).1 index sub heq
    refine ⟨index, hw, fun i hi => ?_⟩
    rcases hi with hi | hi
    · rcases mem_cons.mp hi with rfl | hold
      · exact UInt32.le_refl _
      · exact UInt32.le_trans (hused i (.inl hold)) (UInt32.le_of_lt hlt)
    · exact UInt32.le_trans (hused i (.inr hi)) (UInt32.le_of_lt hlt)
  · rename_i e w heq
    exact ⟨last, (hlast.allocate label).2 e heq, hused⟩

theorem Covered.advance (hcovered : Covered seals h) {event : Event β ι}
    (hrecorded : Recorded h event) : Covered seals (advance crypto lib id seals T h event) := by
  cases event with
  | allocate env label => exact hcovered.allocate env label
  | note env discovered =>
    obtain ⟨hseed, hwrites⟩ := hrecorded
    refine hcovered.mono fun last hlast => ?_
    obtain ⟨last', hle, hlast', -⟩ := hlast.note hseed hwrites discovered
    exact ⟨last', hle, hlast'⟩
  | setLabel env index label =>
    exact hcovered.mono fun last hlast => ⟨last, UInt32.le_refl _, hlast.setLabel index label⟩
  | scan env blocks => exact hcovered.scan hrecorded.1 hrecorded.2 blocks
  | restart => exact hcovered.mono fun _ hlast => hlast.restart

/-- In every history in which whatever is noted is written, an index that is handed out was
neither handed out nor found paid before. -/
theorem allocated_unused (crypto : Crypto) (lib : ScanLibrary) (id : Identity Point)
    (seals : Sealing ι) (T : BlockTree β) (events : List (Event β ι))
    (hrecorded : Always (advance crypto lib id seals T) Recorded History.start events)
    (env : Env ι) (label : List UInt8) (index : UInt32) (sub : Subaddress) (w : Wallet)
    (hallocate : allocateNextSubaddress seals lib id env label
      (events.foldl (advance crypto lib id seals T) History.start).wallet =
        (.ok (index, sub), w)) :
    index ∉ (events.foldl (advance crypto lib id seals T) History.start).allocated ∧
      index ∉ (events.foldl (advance crypto lib id seals T) History.start).reported := by
  have hstart : Covered seals History.start :=
    ⟨0, stands_fresh, fun _ h => by simp [History.start] at h⟩
  obtain ⟨last, hlast, hused⟩ :=
    hrecorded.invariant (fun _ _ hevent hcovered => hcovered.advance hevent) hstart
  have hlt := ((hlast.allocate label).1 index sub hallocate).1
  have hnot : ¬ index ≤ last := UInt32.not_le.mpr hlt
  exact ⟨fun hmem => hnot (hused index (.inl hmem)), fun hmem => hnot (hused index (.inr hmem))⟩

end Histories

section Samples

open RecoveryIndex (sampleLibrary sampleIdentity sampleCrypto sampleSealing sampleTree calm)

/-- Nothing can be written. -/
def unwritable : Env Unit := { calm with stateWrites := fun _ => false }

/-- A scan of a block that pays to the first subaddress, and then a restart. -/
def scanned (env : Env Unit) : History :=
  [Event.scan env [()], Event.restart].foldl
    (advance sampleCrypto sampleLibrary sampleIdentity sampleSealing (sampleTree [1])) History.start

/-- When the note is not written, the subaddress that was found paid is handed out. -/
theorem paid_index_allocated :
    (allocateNextSubaddress sampleSealing sampleLibrary sampleIdentity calm []
        (scanned unwritable).wallet).1.map Prod.fst = .ok 1 ∧
      1 ∈ (scanned unwritable).reported := by
  decide +kernel

theorem allocated_unused_scanned :
    1 ∈ (scanned calm).reported ∧
      (allocateNextSubaddress sampleSealing sampleLibrary sampleIdentity calm []
        (scanned calm).wallet).1.map Prod.fst = .ok 2 ∧
      2 ∉ (scanned calm).allocated ∧ 2 ∉ (scanned calm).reported := by
  have hcall : (allocateNextSubaddress sampleSealing sampleLibrary sampleIdentity calm []
      (scanned calm).wallet).1.map Prod.fst = .ok 2 := by decide +kernel
  refine ⟨by decide +kernel, hcall, ?_⟩
  cases hresult : allocateNextSubaddress sampleSealing sampleLibrary sampleIdentity calm []
      (scanned calm).wallet with
  | mk result w =>
    rw [hresult] at hcall
    cases result with
    | error e => cases hcall
    | ok found =>
      obtain ⟨index, sub⟩ := found
      obtain rfl : index = 2 := Except.ok.inj hcall
      exact allocated_unused sampleCrypto sampleLibrary sampleIdentity sampleSealing
        (sampleTree [1]) [.scan calm [()], .restart] ⟨⟨rfl, fun _ => rfl⟩, trivial, trivial⟩ calm []
        2 sub w hresult

end Samples

end Pricoin.SubaddressReuse
