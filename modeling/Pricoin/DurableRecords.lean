import Mathlib.Data.List.Nodup
import Mathlib.Logic.Function.Basic
import Pricoin.RecordCodecs
import Pricoin.Runs

/-!
Records in a database table with a copy in memory. The rows are sealed images of the
records under digests of their keys. The copy is filled when it is first needed, and a
record is put in both places, or in none when the row cannot be written. Whatever
fails and whenever the process starts anew, the rows are those of a table of records
and the copy is either empty or that table.
-/
namespace Pricoin.DurableRecords

open ByteStreams Codecs RecordCodecs List Option Function

variable {ε : Type}

/-- How records are kept. The loader may skip the rows that it cannot read, and may
fill fields of the records that it reads. -/
structure Format (κ δ ρ : Type) where
  digest : κ → δ
  digest_injective : Injective digest
  keyOf : ρ → κ
  codec : Codec ρ
  fits : Fits codec
  lenient : Bool
  onLoad : ρ → ρ
  keyOf_onLoad : ∀ record, keyOf (onLoad record) = keyOf record

/-- Encryption of the rows, with a seed for what is drawn at random. -/
structure Sealing (ι : Type) where
  encrypt : ι → List UInt8 → List UInt8
  decrypt : List UInt8 → Option (List UInt8)
  decrypt_encrypt : ∀ seed plain, decrypt (encrypt seed plain) = some plain
  length_le : ∀ seed plain, plain.length ≤ (encrypt seed plain).length

/-- Bytes are their own encryption. -/
def plainSealing : Sealing Unit where
  encrypt _ plain := plain
  decrypt := some
  decrypt_encrypt _ _ := rfl
  length_le _ _ := Nat.le_refl _

/-- What a call meets: a locked wallet, rows that cannot be read, no encryption, rows that cannot
be written. -/
structure Conditions (ι : Type) where
  locked : Bool
  reads : Bool
  seed : Option ι
  writes : Bool

/-- The rows of the table, and the copy in memory. -/
structure Cache (κ δ ρ : Type) where
  rows : List (δ × List UInt8)
  store : κ → Option ρ
  loaded : Bool

inductive Loading where
  | done
  | failed
  | threw
  deriving DecidableEq

/-- How a call ends. -/
inductive Outcome (ε : Type) where
  | threw
  | locked
  | loadFailed
  | refused (e : ε)
  | writeFailed
  | written

/-- What is returned, if anything. -/
def Outcome.result {ε : Type} (locked failed ok : ε) : Outcome ε → Option ε
  | .threw => none
  | .locked => some locked
  | .loadFailed => some failed
  | .refused e => some e
  | .writeFailed => some failed
  | .written => some ok

theorem Outcome.result_ne {locked failed ok : ε} {outcome : Outcome ε} (hne : outcome ≠ .written)
    (hlocked : locked ≠ ok) (hfailed : failed ≠ ok)
    (hrefused : ∀ e, outcome = .refused e → e ≠ ok) :
    outcome.result locked failed ok ≠ some ok := by
  cases outcome with
  | threw => exact nofun
  | locked => exact fun h => hlocked (some.inj h)
  | loadFailed => exact fun h => hfailed (some.inj h)
  | refused e => exact fun h => hrefused e rfl (some.inj h)
  | writeFailed => exact fun h => hfailed (some.inj h)
  | written => exact absurd rfl hne

section Operations

variable {κ δ ρ ι : Type} [DecidableEq κ] [DecidableEq δ]
variable (fmt : Format κ δ ρ) (seals : Sealing ι)

def put (record : ρ) (store : κ → Option ρ) : κ → Option ρ :=
  Function.update store (fmt.keyOf record) (some record)

/-- Fill the copy row by row, up to one that stops the loader. -/
def loadRows (store : κ → Option ρ) : List (δ × List UInt8) → Bool × (κ → Option ρ)
  | [] => (true, store)
  | (digest, blob) :: rows =>
    match seals.decrypt blob with
    | none => (false, store)
    | some plain =>
      match fmt.codec.read plain with
      | none => if fmt.lenient then loadRows store rows else (false, store)
      | some (record, _) =>
        if fmt.digest (fmt.keyOf record) ≠ digest then
          if fmt.lenient then loadRows store rows else (false, store)
        else loadRows (put fmt (fmt.onLoad record) store) rows

/-- A row of more than the largest size stops the reading of the table with an exception. -/
def ensureLoaded (env : Conditions ι) (c : Cache κ δ ρ) : Loading × Cache κ δ ρ :=
  if c.loaded then (.done, c)
  else if !env.reads then (.failed, c)
  else if c.rows.any fun row => maxSize < row.2.length then (.threw, c)
  else
    let (ok, store) := loadRows fmt seals c.store c.rows
    if ok then (.done, { c with store := store, loaded := true })
    else (.failed, { c with store := store })

def writeRow (digest : δ) (blob : List UInt8) (rows : List (δ × List UInt8)) :
    List (δ × List UInt8) :=
  (digest, blob) :: rows.filter fun row => row.1 ≠ digest

def writeRecord (env : Conditions ι) (record : ρ) (c : Cache κ δ ρ) : Bool × Cache κ δ ρ :=
  match env.seed with
  | none => (false, c)
  | some seed =>
    if !env.writes then (false, c)
    else
      let blob := seals.encrypt seed (fmt.codec.write record)
      (true, { c with rows := writeRow (fmt.digest (fmt.keyOf record)) blob c.rows })

/-- Put a record in memory and then write it, and take the one before back when that fails. -/
def persist (env : Conditions ι) (inMemory record : ρ) (c : Cache κ δ ρ) :
    Bool × Cache κ δ ρ :=
  let prior := c.store (fmt.keyOf record)
  let (ok, c) := writeRecord fmt seals env record { c with store := put fmt inMemory c.store }
  if ok then (true, c)
  else (false, { c with store := Function.update c.store (fmt.keyOf record) prior })

/-- Load the copy, look a record up and replace it by what is to stand in memory and in its row.
The change may be refused. -/
def amend {ε : Type} (env : Conditions ι) (key : κ) (change : Option ρ → Except ε (ρ × ρ))
    (c : Cache κ δ ρ) : Outcome ε × Cache κ δ ρ :=
  if env.locked then (.locked, c)
  else match ensureLoaded fmt seals env c with
    | (.threw, c) => (.threw, c)
    | (.failed, c) => (.loadFailed, c)
    | (.done, c) =>
      match change (c.store key) with
      | .error e => (.refused e, c)
      | .ok (inMemory, record) =>
        match persist fmt seals env inMemory record c with
        | (true, c) => (.written, c)
        | (false, c) => (.writeFailed, c)

def restart (c : Cache κ δ ρ) : Cache κ δ ρ := { c with store := fun _ => none, loaded := false }

/-- The copy that a new process would have, if it could load one. -/
def freshLoad (c : Cache κ δ ρ) : Option (κ → Option ρ) :=
  if c.rows.any fun row => maxSize < row.2.length then none
  else
    let (ok, store) := loadRows fmt seals (fun _ => none) c.rows
    if ok then some store else none

/-- The record under a key, in the copy or as it would be loaded. -/
def recorded (c : Cache κ δ ρ) (key : κ) : Option ρ :=
  if c.loaded then c.store key else (freshLoad fmt seals c).bind fun store => store key

end Operations

section Coherence

variable {κ δ ρ ι : Type} [DecidableEq κ] [DecidableEq δ]
variable {fmt : Format κ δ ρ} {seals : Sealing ι}

/-- The row is the image of a record of the table. -/
def RowOf (fmt : Format κ δ ρ) (seals : Sealing ι) (table : κ → Option ρ)
    (row : δ × List UInt8) : Prop :=
  ∃ record seed, table (fmt.keyOf record) = some record ∧
    row = (fmt.digest (fmt.keyOf record), seals.encrypt seed (fmt.codec.write record))

/-- The rows are those of the table, and the copy is empty or has the records of the table, as
they were put in or as the loader left them. -/
structure Coherent (fmt : Format κ δ ρ) (seals : Sealing ι) (table : κ → Option ρ)
    (c : Cache κ δ ρ) : Prop where
  distinct : (c.rows.map Prod.fst).Nodup
  keyed : ∀ key record, table key = some record → fmt.keyOf record = key
  sound : ∀ row ∈ c.rows, RowOf fmt seals table row
  complete : ∀ key record, table key = some record → ∃ blob, (fmt.digest key, blob) ∈ c.rows
  unloaded : c.loaded = false → c.store = fun _ => none
  loaded : c.loaded = true →
    ∀ key, c.store key = table key ∨ c.store key = (table key).map fmt.onLoad

omit [DecidableEq κ] [DecidableEq δ] in
theorem coherent_empty :
    Coherent fmt seals (fun _ => none) ⟨[], fun _ => none, false⟩ where
  distinct := nodup_nil
  keyed _ _ h := by simp at h
  sound _ h := by simp at h
  complete _ _ h := by simp at h
  unloaded _ := rfl
  loaded h := by simp at h

variable {table : κ → Option ρ}
variable {c c' : Cache κ δ ρ} {env : Conditions ι} {record : ρ} {key : κ}

/-- Loading the rows of the table fills in its records under the digests of the rows. -/
theorem loadRows_eq {rows : List (δ × List UInt8)}
    (hrows : ∀ row ∈ rows, RowOf fmt seals table row)
    (hsmall : ∀ row ∈ rows, row.2.length ≤ maxSize) (store : κ → Option ρ) :
    loadRows fmt seals store rows = (true, fun key =>
      if fmt.digest key ∈ rows.map Prod.fst then (table key).map fmt.onLoad else store key) := by
  induction rows generalizing store with
  | nil => rfl
  | cons row rows ih =>
    obtain ⟨record, seed, htable, rfl⟩ := hrows row mem_cons_self
    have hlen : (fmt.codec.write record).length ≤ maxSize :=
      (seals.length_le seed _).trans (hsmall _ mem_cons_self)
    have hread : fmt.codec.read (fmt.codec.write record) = some (record, []) := by
      have hlossless := fmt.fits record hlen []
      rwa [append_nil] at hlossless
    rw [loadRows, seals.decrypt_encrypt]
    simp only [hread, ne_eq, not_true_eq_false, if_false]
    rw [ih (fun r hr => hrows r (mem_cons_of_mem _ hr))
      (fun r hr => hsmall r (mem_cons_of_mem _ hr))]
    congr 1
    funext key
    simp only [map_cons, mem_cons]
    by_cases hkey : key = fmt.keyOf record
    · subst hkey
      simp [put, fmt.keyOf_onLoad, htable]
    · have hdigest : fmt.digest key ≠ fmt.digest (fmt.keyOf record) :=
        fun h => hkey (fmt.digest_injective h)
      simp only [put, fmt.keyOf_onLoad, hdigest, false_or, update_of_ne hkey]

omit [DecidableEq κ] [DecidableEq δ] in
theorem Coherent.digest_mem_iff (h : Coherent fmt seals table c) (key : κ) :
    fmt.digest key ∈ c.rows.map Prod.fst ↔ (table key).isSome = true := by
  constructor
  · intro hmem
    obtain ⟨row, hrow, hdigest⟩ := mem_map.mp hmem
    obtain ⟨record, seed, htable, rfl⟩ := h.sound row hrow
    rw [← fmt.digest_injective hdigest, htable]
    rfl
  · intro hsome
    obtain ⟨record, hrecord⟩ := isSome_iff_exists.mp hsome
    obtain ⟨blob, hblob⟩ := h.complete key record hrecord
    exact mem_map_of_mem hblob

/-- The rows of a coherent cache load to the table. -/
theorem Coherent.loadRows_eq (h : Coherent fmt seals table c)
    (hsmall : ∀ row ∈ c.rows, row.2.length ≤ maxSize) :
    loadRows fmt seals (fun _ => none) c.rows =
      (true, fun key => (table key).map fmt.onLoad) := by
  rw [DurableRecords.loadRows_eq h.sound hsmall]
  congr 1
  funext key
  split
  · rfl
  · rename_i hnot
    rw [h.digest_mem_iff, Bool.not_eq_true, isSome_eq_false_iff,
      isNone_iff_eq_none] at hnot
    rw [hnot]
    rfl

theorem Coherent.freshLoad_eq (h : Coherent fmt seals table c)
    (hsmall : ∀ row ∈ c.rows, row.2.length ≤ maxSize) :
    freshLoad fmt seals c = some fun key => (table key).map fmt.onLoad := by
  have hany : (c.rows.any fun row => decide (maxSize < row.2.length)) = false := by
    simpa using hsmall
  rw [freshLoad, hany, h.loadRows_eq hsmall]
  rfl

theorem small_of_freshLoad {store : κ → Option ρ} (h : freshLoad fmt seals c = some store) :
    ∀ row ∈ c.rows, row.2.length ≤ maxSize := by
  unfold freshLoad at h
  split at h
  · contradiction
  · rename_i hany
    simpa using hany

omit [DecidableEq κ] [DecidableEq δ] in
theorem Coherent.restart (h : Coherent fmt seals table c) : Coherent fmt seals table (restart c) :=
  ⟨h.distinct, h.keyed, h.sound, h.complete, fun _ => rfl,
    fun hl => by simp [DurableRecords.restart] at hl⟩

/-- The copy is filled, or nothing changes. -/
theorem Coherent.ensureLoaded {result : Loading} (h : Coherent fmt seals table c)
    (hload : ensureLoaded fmt seals env c = (result, c')) :
    Coherent fmt seals table c' ∧ (result = .done → c'.loaded = true) ∧
      (result ≠ .done → c' = c) := by
  unfold DurableRecords.ensureLoaded at hload
  split_ifs at hload with hloaded hreads hany
  · obtain ⟨rfl, rfl⟩ := Prod.mk.inj hload
    exact ⟨h, fun _ => hloaded, fun _ => rfl⟩
  · obtain ⟨rfl, rfl⟩ := Prod.mk.inj hload
    exact ⟨h, fun hdone => by simp at hdone, fun _ => rfl⟩
  · obtain ⟨rfl, rfl⟩ := Prod.mk.inj hload
    exact ⟨h, fun hdone => by simp at hdone, fun _ => rfl⟩
  · have hsmall : ∀ row ∈ c.rows, row.2.length ≤ maxSize := by simpa using hany
    have hempty : c.store = fun _ => none := h.unloaded (by simpa using hloaded)
    rw [hempty, h.loadRows_eq hsmall] at hload
    obtain ⟨rfl, rfl⟩ := Prod.mk.inj hload
    refine ⟨⟨h.distinct, h.keyed, h.sound, h.complete, fun hl => by simp at hl, ?_⟩, fun _ => rfl,
      fun hne => absurd rfl hne⟩
    exact fun _ key => .inr rfl

theorem nodup_writeRow {digest : δ} {blob : List UInt8} {rows : List (δ × List UInt8)}
    (h : (rows.map Prod.fst).Nodup) : ((writeRow digest blob rows).map Prod.fst).Nodup := by
  rw [writeRow, map_cons, nodup_cons]
  refine ⟨?_, h.sublist (filter_sublist.map _)⟩
  simp

omit [DecidableEq δ] in
theorem put_of_ne (h : key ≠ fmt.keyOf record) (store : κ → Option ρ) :
    put fmt record store key = store key := update_of_ne h _ _

omit [DecidableEq δ] in
theorem put_self (record : ρ) (store : κ → Option ρ) :
    put fmt record store (fmt.keyOf record) = some record := update_self _ _ _

/-- A written record takes its place in the table and in the copy. -/
theorem Coherent.put (h : Coherent fmt seals table c) (record : ρ) (seed : ι)
    (hloaded : c.loaded = true) :
    Coherent fmt seals (put fmt record table)
      { c with
        rows := writeRow (fmt.digest (fmt.keyOf record))
          (seals.encrypt seed (fmt.codec.write record)) c.rows
        store := DurableRecords.put fmt record c.store } where
  distinct := nodup_writeRow h.distinct
  keyed key record' hrecord' := by
    by_cases hkey : key = fmt.keyOf record
    · rw [hkey, put_self, some.injEq] at hrecord'
      rw [hkey, hrecord']
    · rw [put_of_ne hkey] at hrecord'
      exact h.keyed key record' hrecord'
  sound row hrow := by
    rcases mem_cons.mp hrow with rfl | hold
    · exact ⟨record, seed, put_self record table, rfl⟩
    · obtain ⟨hmem, hne⟩ := mem_filter.mp hold
      obtain ⟨record', seed', htable, rfl⟩ := h.sound row hmem
      have hkey : fmt.keyOf record' ≠ fmt.keyOf record := by
        intro hkey
        simp [hkey] at hne
      exact ⟨record', seed', by rw [put_of_ne hkey, htable], rfl⟩
  complete key record' hrecord' := by
    by_cases hkey : key = fmt.keyOf record
    · subst hkey
      exact ⟨_, mem_cons_self⟩
    · rw [put_of_ne hkey] at hrecord'
      obtain ⟨blob, hblob⟩ := h.complete key record' hrecord'
      have hdigest : fmt.digest key ≠ fmt.digest (fmt.keyOf record) :=
        fun heq => hkey (fmt.digest_injective heq)
      exact ⟨blob, mem_cons_of_mem _ (mem_filter.mpr ⟨hblob, by simpa using hdigest⟩)⟩
  unloaded hl := by simp [hloaded] at hl
  loaded _ key := by
    by_cases hkey : key = fmt.keyOf record
    · subst hkey
      exact .inl ((put_self record c.store).trans (put_self record table).symm)
    · simp only [put_of_ne hkey]
      exact h.loaded hloaded key

/-- A record is put in the table and the copy, or nothing changes. -/
theorem Coherent.persist {ok : Bool} (h : Coherent fmt seals table c) (hloaded : c.loaded = true)
    (hpersist : persist fmt seals env record record c = (ok, c')) :
    (ok = true ∧ Coherent fmt seals (DurableRecords.put fmt record table) c' ∧
      c'.store = DurableRecords.put fmt record c.store ∧ c'.loaded = true) ∨
    (ok = false ∧ c' = c) := by
  have hback : Function.update (DurableRecords.put fmt record c.store) (fmt.keyOf record)
      (c.store (fmt.keyOf record)) = c.store := by
    rw [DurableRecords.put, update_idem, update_eq_self]
  have hsame : Cache.mk c.rows (Function.update (DurableRecords.put fmt record c.store)
      (fmt.keyOf record) (c.store (fmt.keyOf record))) c.loaded = c :=
    congrArg (fun store => Cache.mk c.rows store c.loaded) hback
  unfold DurableRecords.persist writeRecord at hpersist
  cases hseed : env.seed with
  | none =>
    simp only [hseed] at hpersist
    obtain ⟨rfl, rfl⟩ := Prod.mk.inj hpersist
    exact .inr ⟨rfl, hsame⟩
  | some seed =>
    cases hwrites : env.writes with
    | false =>
      simp only [hseed, hwrites] at hpersist
      obtain ⟨rfl, rfl⟩ := Prod.mk.inj hpersist
      exact .inr ⟨rfl, hsame⟩
    | true =>
      simp only [hseed, hwrites] at hpersist
      obtain ⟨rfl, rfl⟩ := Prod.mk.inj hpersist
      exact .inl ⟨rfl, h.put record seed hloaded, rfl, hloaded⟩

/-- What the copy has under a key when it is filled. -/
def Shown (fmt : Format κ δ ρ) (table : κ → Option ρ) (key : κ) (existing : Option ρ) : Prop :=
  existing = table key ∨ existing = (table key).map fmt.onLoad

/-- The loader leaves the records of the table as they are. -/
def Stable (fmt : Format κ δ ρ) (table : κ → Option ρ) : Prop :=
  ∀ key record, table key = some record → fmt.onLoad record = record

omit [DecidableEq κ] [DecidableEq δ] in
theorem stable_of_id (hid : ∀ record, fmt.onLoad record = record) : Stable fmt table :=
  fun _ record _ => hid record

omit [DecidableEq κ] [DecidableEq δ] in
theorem Stable.map_onLoad (h : Stable fmt table) (key : κ) :
    (table key).map fmt.onLoad = table key := by
  cases hrecord : table key with
  | none => rfl
  | some record => rw [map_some, h key record hrecord]

omit [DecidableEq κ] [DecidableEq δ] in
theorem Shown.eq {existing : Option ρ} (h : Shown fmt table key existing)
    (hstable : Stable fmt table) : existing = table key := by
  rcases h with h | h
  · exact h
  · rw [h, hstable.map_onLoad]

/-- What is recorded under a key is in the table. -/
theorem Coherent.table_of_recorded (h : Coherent fmt seals table c) (hstable : Stable fmt table)
    (hrecorded : recorded fmt seals c key = some record) : table key = some record := by
  unfold recorded at hrecorded
  split at hrecorded
  · rename_i hloaded
    have hshown : Shown fmt table key (c.store key) := h.loaded hloaded key
    rw [← hshown.eq hstable, hrecorded]
  · obtain ⟨store, hfresh, hstore⟩ := bind_eq_some_iff.mp hrecorded
    rw [h.freshLoad_eq (small_of_freshLoad hfresh), some.injEq] at hfresh
    have hshown : Shown fmt table key (store key) := .inr (congrFun hfresh key).symm
    rw [← hshown.eq hstable, hstore]

/-- A filled copy has what is recorded. -/
theorem Coherent.recorded_eq {d : Cache κ δ ρ} (h : Coherent fmt seals table c)
    (hload : DurableRecords.ensureLoaded fmt seals env c = (.done, d)) (key : κ) :
    recorded fmt seals c key = d.store key := by
  unfold DurableRecords.ensureLoaded at hload
  unfold recorded
  split_ifs at hload with hloaded hreads hany
  · obtain ⟨-, rfl⟩ := Prod.mk.inj hload
    rw [if_pos hloaded]
  · cases hload
  · cases hload
  · have hempty : c.store = fun _ => none := h.unloaded (by simpa using hloaded)
    have hsmall : ∀ row ∈ c.rows, row.2.length ≤ maxSize := by simpa using hany
    rw [if_neg hloaded, h.freshLoad_eq hsmall]
    rw [hempty, h.loadRows_eq hsmall] at hload
    obtain ⟨-, rfl⟩ := Prod.mk.inj hload
    rfl

/-- The rows are the same, a filled copy is too, and so is every record. -/
structure Unchanged (fmt : Format κ δ ρ) (seals : Sealing ι) (c c' : Cache κ δ ρ) : Prop where
  rows : c'.rows = c.rows
  copy : c.loaded = true → c' = c
  records : ∀ key, recorded fmt seals c' key = recorded fmt seals c key

theorem Unchanged.refl (c : Cache κ δ ρ) : Unchanged fmt seals c c :=
  ⟨rfl, fun _ => rfl, fun _ => rfl⟩

theorem rows_ensureLoaded (fmt : Format κ δ ρ) (seals : Sealing ι) (env : Conditions ι)
    (c : Cache κ δ ρ) : (ensureLoaded fmt seals env c).2.rows = c.rows := by
  unfold ensureLoaded
  split_ifs
  · rfl
  · rfl
  · rfl
  · simp only
    split <;> rfl

/-- Loading changes nothing that is recorded. -/
theorem Coherent.unchanged_ensureLoaded {result : Loading} (h : Coherent fmt seals table c)
    (hload : DurableRecords.ensureLoaded fmt seals env c = (result, c')) :
    Unchanged fmt seals c c' := by
  obtain ⟨-, hdone, hother⟩ := h.ensureLoaded hload
  by_cases hresult : result = .done
  · subst hresult
    refine ⟨?_, fun hloaded => ?_, fun key => ?_⟩
    · rw [← rows_ensureLoaded fmt seals env c, hload]
    · unfold DurableRecords.ensureLoaded at hload
      rw [if_pos hloaded] at hload
      exact (Prod.mk.inj hload).2.symm
    · rw [h.recorded_eq hload key, recorded, if_pos (hdone rfl)]
  · rw [hother hresult]
    exact .refl c

/-- How a change ends: with a locked wallet, with what loading left, or with a record that takes
its place in the table. -/
theorem Coherent.amend_cases {change : Option ρ → Except ε (ρ × ρ)} {outcome : Outcome ε}
    (hchange : ∀ existing p, change existing = .ok p → p.1 = p.2) (h : Coherent fmt seals table c)
    (hamend : DurableRecords.amend fmt seals env key change c = (outcome, c')) :
    (outcome = .locked ∧ c' = c) ∨
    ∃ result d, DurableRecords.ensureLoaded fmt seals env c = (result, d) ∧
      ((outcome ≠ .written ∧ c' = d ∧
          ∀ e, outcome = .refused e → result = .done ∧ change (d.store key) = .error e) ∨
        (outcome = .written ∧ result = .done ∧ c'.loaded = true ∧
          ∃ record, change (d.store key) = .ok (record, record) ∧
            Coherent fmt seals (DurableRecords.put fmt record table) c')) := by
  unfold DurableRecords.amend at hamend
  split at hamend
  · obtain ⟨rfl, rfl⟩ := Prod.mk.inj hamend
    exact .inl ⟨rfl, rfl⟩
  · obtain ⟨result, d, hload⟩ : ∃ result d,
        DurableRecords.ensureLoaded fmt seals env c = (result, d) := ⟨_, _, rfl⟩
    obtain ⟨hd, hdone, -⟩ := h.ensureLoaded hload
    rw [hload] at hamend
    refine .inr ⟨result, d, hload, ?_⟩
    cases result with
    | threw =>
      obtain ⟨rfl, rfl⟩ := Prod.mk.inj hamend
      exact .inl ⟨nofun, rfl, nofun⟩
    | failed =>
      obtain ⟨rfl, rfl⟩ := Prod.mk.inj hamend
      exact .inl ⟨nofun, rfl, nofun⟩
    | done =>
      cases hresult : change (d.store key) with
      | error e =>
        simp only [hresult] at hamend
        obtain ⟨rfl, rfl⟩ := Prod.mk.inj hamend
        refine .inl ⟨nofun, rfl, fun e' he' => ⟨rfl, ?_⟩⟩
        rw [Outcome.refused.inj he']
      | ok p =>
        obtain ⟨inMemory, record⟩ := p
        obtain rfl : inMemory = record := hchange _ _ hresult
        simp only [hresult] at hamend
        obtain ⟨ok, d', hpersist⟩ : ∃ ok d',
            DurableRecords.persist fmt seals env inMemory inMemory d = (ok, d') := ⟨_, _, rfl⟩
        rw [hpersist] at hamend
        rcases hd.persist (hdone rfl) hpersist with ⟨rfl, hd', -, hloaded⟩ | ⟨rfl, rfl⟩
        · obtain ⟨rfl, rfl⟩ := Prod.mk.inj hamend
          exact .inr ⟨rfl, rfl, hloaded, inMemory, rfl, hd'⟩
        · obtain ⟨rfl, rfl⟩ := Prod.mk.inj hamend
          exact .inl ⟨nofun, rfl, nofun⟩

/-- A change is made to what the copy has, in the table as in the copy, or the table stays. -/
theorem Coherent.amend {change : Option ρ → Except ε (ρ × ρ)} {outcome : Outcome ε}
    (hchange : ∀ existing p, change existing = .ok p → p.1 = p.2) (h : Coherent fmt seals table c)
    (hamend : amend fmt seals env key change c = (outcome, c')) :
    (∃ existing record, outcome = .written ∧ Shown fmt table key existing ∧
      recorded fmt seals c key = existing ∧ change existing = .ok (record, record) ∧
      Coherent fmt seals (DurableRecords.put fmt record table) c') ∨
    (outcome ≠ .written ∧ Coherent fmt seals table c' ∧
      ∀ e, outcome = .refused e → ∃ existing, Shown fmt table key existing ∧
        recorded fmt seals c key = existing ∧ change existing = .error e) := by
  rcases h.amend_cases hchange hamend with
    ⟨rfl, rfl⟩ | ⟨result, d, hload, ⟨hne, rfl, hrefused⟩ | ⟨rfl, rfl, -, record, hresult, hc'⟩⟩
  · exact .inr ⟨nofun, h, nofun⟩
  · obtain ⟨hd, hdone, -⟩ := h.ensureLoaded hload
    refine .inr ⟨hne, hd, fun e he => ?_⟩
    obtain ⟨rfl, herror⟩ := hrefused e he
    exact ⟨_, hd.loaded (hdone rfl) key, h.recorded_eq hload key, herror⟩
  · obtain ⟨hd, hdone, -⟩ := h.ensureLoaded hload
    exact .inl ⟨_, record, rfl, hd.loaded (hdone rfl) key, h.recorded_eq hload key, hresult, hc'⟩

/-- A change that is not written leaves everything as it was. -/
theorem Coherent.unchanged_amend {change : Option ρ → Except ε (ρ × ρ)} {outcome : Outcome ε}
    (hchange : ∀ existing p, change existing = .ok p → p.1 = p.2) (h : Coherent fmt seals table c)
    (hamend : DurableRecords.amend fmt seals env key change c = (outcome, c'))
    (hne : outcome ≠ .written) : Unchanged fmt seals c c' := by
  rcases h.amend_cases hchange hamend with
    ⟨-, rfl⟩ | ⟨result, d, hload, ⟨-, rfl, -⟩ | ⟨hwritten, -⟩⟩
  · exact .refl _
  · exact h.unchanged_ensureLoaded hload
  · exact absurd hwritten hne

/-- The rows can be loaded, if they are not in the copy already. -/
def Loadable (c : Cache κ δ ρ) : Prop :=
  c.loaded = false → ∀ row ∈ c.rows, row.2.length ≤ maxSize

omit [DecidableEq κ] [DecidableEq δ] in
theorem Loadable.of_eq (h : Loadable c) (hc : c'.loaded = false → c' = c) : Loadable c' := by
  intro hloaded
  obtain rfl := hc hloaded
  exact h hloaded

/-- A call that leaves the copy empty leaves everything. -/
theorem Coherent.eq_of_unloaded_ensureLoaded {result : Loading} (h : Coherent fmt seals table c)
    (hload : DurableRecords.ensureLoaded fmt seals env c = (result, c')) (hc' : c'.loaded = false) :
    c' = c := by
  obtain ⟨-, hdone, hother⟩ := h.ensureLoaded hload
  refine hother fun hresult => ?_
  exact absurd ((hdone hresult).symm.trans hc') nofun

theorem Coherent.eq_of_unloaded_amend {change : Option ρ → Except ε (ρ × ρ)} {outcome : Outcome ε}
    (hchange : ∀ existing p, change existing = .ok p → p.1 = p.2) (h : Coherent fmt seals table c)
    (hamend : DurableRecords.amend fmt seals env key change c = (outcome, c'))
    (hc' : c'.loaded = false) : c' = c := by
  rcases h.amend_cases hchange hamend with
    ⟨-, rfl⟩ | ⟨result, d, hload, ⟨-, rfl, -⟩ | ⟨-, -, hloaded, -⟩⟩
  · rfl
  · exact h.eq_of_unloaded_ensureLoaded hload hc'
  · exact absurd (hloaded.symm.trans hc') nofun

/-- What is recorded is the table, when it can be loaded. -/
theorem Coherent.recorded_eq_table (h : Coherent fmt seals table c) (hstable : Stable fmt table)
    (hloadable : Loadable c) (key : κ) : recorded fmt seals c key = table key := by
  unfold recorded
  split
  · rename_i hloaded
    have hshown : Shown fmt table key (c.store key) := h.loaded hloaded key
    exact hshown.eq hstable
  · rename_i hloaded
    rw [h.freshLoad_eq (hloadable (by simpa using hloaded))]
    exact hstable.map_onLoad key

/-- Rows that can be loaded are. -/
theorem Coherent.ensureLoaded_done (h : Coherent fmt seals table c) (hloadable : Loadable c)
    (hreads : env.reads = true) :
    ∃ d, DurableRecords.ensureLoaded fmt seals env c = (.done, d) := by
  unfold DurableRecords.ensureLoaded
  split_ifs with hloaded hunread hany
  · exact ⟨c, rfl⟩
  · simp [hreads] at hunread
  · have hsmall := hloadable (by simpa using hloaded)
    have hnone : (c.rows.any fun row => decide (maxSize < row.2.length)) = false := by
      simpa using hsmall
    exact absurd (hnone.symm.trans hany) nofun
  · have hempty : c.store = fun _ => none := h.unloaded (by simpa using hloaded)
    rw [hempty, h.loadRows_eq (hloadable (by simpa using hloaded))]
    exact ⟨_, rfl⟩

/-- A change that is not refused is written, if the rows can be. -/
theorem Coherent.amend_written {change : Option ρ → Except ε (ρ × ρ)}
    (h : Coherent fmt seals table c) (hloadable : Loadable c) (hlocked : env.locked = false)
    (hreads : env.reads = true) (hseed : env.seed ≠ none) (hwrites : env.writes = true)
    (hchange : change (recorded fmt seals c key) = .ok (record, record)) :
    (DurableRecords.amend fmt seals env key change c).1 = .written := by
  obtain ⟨d, hload⟩ := h.ensureLoaded_done hloadable hreads
  obtain ⟨seed, hseed⟩ := ne_none_iff_exists'.mp hseed
  rw [h.recorded_eq hload key] at hchange
  unfold DurableRecords.amend
  rw [if_neg (by simp [hlocked]), hload]
  simp only [hchange, DurableRecords.persist, writeRecord, hseed, hwrites]
  rfl

end Coherence

section Tables

open Runs

variable {κ δ ρ ι α : Type} {fmt : Format κ δ ρ} {seals : Sealing ι}
variable {step : Cache κ δ ρ → α → Cache κ δ ρ}
  {effect : Cache κ δ ρ → α → (κ → Option ρ) → (κ → Option ρ) → Prop}

/-- The cache keeps to a table with the property. -/
def Keeps (fmt : Format κ δ ρ) (seals : Sealing ι) (P : (κ → Option ρ) → Prop)
    (c : Cache κ δ ρ) : Prop :=
  ∃ table, Coherent fmt seals table c ∧ P table

/-- Every step has its effect on the table that the cache keeps to. -/
def Simulates (fmt : Format κ δ ρ) (seals : Sealing ι) (step : Cache κ δ ρ → α → Cache κ δ ρ)
    (effect : Cache κ δ ρ → α → (κ → Option ρ) → (κ → Option ρ) → Prop) : Prop :=
  ∀ c a table, Coherent fmt seals table c →
    ∃ table', effect c a table table' ∧ Coherent fmt seals table' (step c a)

theorem Keeps.after {P Q : (κ → Option ρ) → Prop} {c : Cache κ δ ρ} {a : α}
    (h : Keeps fmt seals P c) (hsim : Simulates fmt seals step effect)
    (heffect : ∀ table table', P table → effect c a table table' → Q table') :
    Keeps fmt seals Q (step c a) := by
  obtain ⟨table, hc, htable⟩ := h
  obtain ⟨table', heff, hc'⟩ := hsim c a table hc
  exact ⟨table', hc', heffect table table' htable heff⟩

theorem Keeps.run {P : (κ → Option ρ) → Prop} {c : Cache κ δ ρ} {as : List α}
    (h : Keeps fmt seals P c) (hsim : Simulates fmt seals step effect)
    (has : Always step (fun c a => ∀ table table', P table → effect c a table table' → P table')
      c as) :
    Keeps fmt seals P (as.foldl step c) :=
  has.invariant (fun _ _ hstep hkeeps => hkeeps.after hsim hstep) h

end Tables

end Pricoin.DurableRecords
