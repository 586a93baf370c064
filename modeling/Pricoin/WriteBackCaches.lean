import Mathlib.Data.List.Dedup
import Pricoin.Runs

/-!
Write-back caches in a stack over a table. An entry is dirty when the level below has yet to
hear of it, and fresh when that level has no value for its key: a fresh entry is dropped when
its value is removed. The dirty entries are linked in a list, which is what a cache writes back.
A stack of such caches does what a stack of plain tables does.
-/
namespace Pricoin.WriteBackCaches

open Function (update update_self update_of_ne update_eq_self update_eq_self_iff)
open Runs Checks List Option

abbrev View (κ α : Type) := κ → Option α

/-- The value of a removed entry is `none`. -/
structure Entry (α : Type) where
  value : Option α
  dirty : Bool
  fresh : Bool

structure Cache (κ α : Type) where
  entries : κ → Option (Entry α)
  flagged : List κ

/-- A value is added over one, or a fresh entry is written over one. -/
inductive Fault where
  | overwritten
  | misapplied

section Operations

variable {κ α : Type} [DecidableEq κ]

namespace Cache

def empty : Cache κ α := ⟨fun _ => none, []⟩

/-- Keep a value of the cache below. -/
def cached (k : κ) (v : α) (c : Cache κ α) : Cache κ α :=
  { c with entries := update c.entries k (some ⟨some v, false, false⟩) }

/-- Set a flagged entry, and link it unless it is linked. -/
def mark (k : κ) (e : Entry α) (c : Cache κ α) : Cache κ α :=
  ⟨update c.entries k (some e), if k ∈ c.flagged then c.flagged else c.flagged ++ [k]⟩

def erase (k : κ) (c : Cache κ α) : Cache κ α :=
  ⟨update c.entries k none, c.flagged.filter (· ≠ k)⟩

def add (k : κ) (v : α) (possibleOverwrite : Bool) (c : Cache κ α) : Except Fault (Cache κ α) :=
  let e := (c.entries k).getD ⟨none, false, false⟩
  if !possibleOverwrite && e.value.isSome then
    .error .overwritten
  else .ok (c.mark k ⟨some v, true, e.fresh || (!possibleOverwrite && !e.dirty)⟩)

/-- Remove a fetched value. A fresh entry goes without a trace. -/
def spend (k : κ) (c : Cache κ α) : Bool × Cache κ α :=
  match c.entries k with
  | none => (false, c)
  | some e => (true, if e.fresh then c.erase k else c.mark k ⟨none, true, false⟩)

def uncache (k : κ) (c : Cache κ α) : Cache κ α :=
  match c.entries k with
  | some e => if e.dirty then c else c.erase k
  | none => c

/-- An entry of the cache above is written into this one. -/
def writeEntry (k : κ) (e : Entry α) (c : Cache κ α) : Except Fault (Cache κ α) :=
  if !e.dirty then .ok c
  else match c.entries k with
    | none =>
      if e.fresh && e.value.isNone then .ok c else .ok (c.mark k ⟨e.value, true, e.fresh⟩)
    | some us =>
      if e.fresh && us.value.isSome then .error .misapplied
      else if us.fresh && e.value.isNone then .ok (c.erase k)
      else .ok (c.mark k ⟨e.value, true, us.fresh⟩)

/-- What is left when the entries were written and are kept. -/
def clean (c : Cache κ α) : Cache κ α :=
  ⟨fun k => if k ∈ c.flagged then
      (c.entries k).bind fun e => e.value.map fun v => ⟨some v, false, false⟩
    else c.entries k, []⟩

end Cache

/-- A table, and the caches over it from the top. -/
structure Stack (κ α : Type) where
  table : View κ α
  caches : List (Cache κ α)

/-- The value at a key after it was fetched. -/
def fetched (table : View κ α) (k : κ) : List (Cache κ α) → Option α
  | [] => table k
  | c :: _ => (c.entries k).bind Entry.value

/-- Keep in each cache what the one below has at a key. -/
def fetch (table : View κ α) (k : κ) : List (Cache κ α) → List (Cache κ α)
  | [] => []
  | c :: cs =>
    match c.entries k with
    | some _ => c :: cs
    | none =>
      let cs := fetch table k cs
      match fetched table k cs with
      | some v => c.cached k v :: cs
      | none => c :: cs

def spend (table : View κ α) (k : κ) (cs : List (Cache κ α)) : Bool × List (Cache κ α) :=
  match fetch table k cs with
  | [] => (false, [])
  | c :: cs => ((c.spend k).1, (c.spend k).2 :: cs)

/-- The entry of a linked key is written into the cache below. -/
def writeInto (c p : Cache κ α) (k : κ) : Except Fault (Cache κ α) :=
  match c.entries k with
  | some e => p.writeEntry k e
  | none => .ok p

def writeTable (c : Cache κ α) (table : View κ α) (k : κ) : View κ α :=
  match c.entries k with
  | some e => if e.dirty then update table k e.value else table
  | none => table

/-- Write the linked entries of a cache into what is below it. -/
def batchWrite (c : Cache κ α) (table : View κ α) : List (Cache κ α) → Except Fault (Stack κ α)
  | [] => .ok ⟨c.flagged.foldl (writeTable c) table, []⟩
  | p :: cs => do
    let p ← run (writeInto c) p c.flagged
    .ok ⟨table, p :: cs⟩

inductive Op (κ α : Type) where
  | add (k : κ) (v : α) (possibleOverwrite : Bool)
  | spend (k : κ)
  | fetch (k : κ)
  | uncache (k : κ)
  | write (keep : Bool)
  | push
  | pop

/-- Write back, and start with nothing cached. -/
abbrev Op.flush : Op κ α := .write false

/-- Write back, and keep what is cached. -/
abbrev Op.sync : Op κ α := .write true

/-- The operations go to the cache on top. Without one there is only the table. -/
def step (s : Stack κ α) : Op κ α → Except Fault (Stack κ α)
  | .push => .ok { s with caches := .empty :: s.caches }
  | .fetch k => .ok { s with caches := fetch s.table k s.caches }
  | .spend k => .ok { s with caches := (spend s.table k s.caches).2 }
  | .pop => .ok { s with caches := s.caches.tail }
  | .uncache k => .ok { s with caches := s.caches.modifyHead (Cache.uncache k) }
  | .add k v possibleOverwrite =>
    match s.caches with
    | [] => .ok s
    | c :: cs => do
      let c ← c.add k v possibleOverwrite
      .ok { s with caches := c :: cs }
  | .write keep =>
    match s.caches with
    | [] => .ok s
    | c :: cs => do
      let s ← batchWrite c s.table cs
      .ok { s with caches := (if keep then c.clean else .empty) :: s.caches }

/-- The same on plain tables, with the table at the end. -/
def viewStep : List (View κ α) → Op κ α → Option (List (View κ α))
  | v :: vs, .push => some (v :: v :: vs)
  | v :: w :: vs, .add k x possibleOverwrite =>
    if !possibleOverwrite && (v k).isSome then none
    else some (update v k (some x) :: w :: vs)
  | v :: w :: vs, .spend k => some (update v k none :: w :: vs)
  | v :: _ :: vs, .write _ => some (v :: v :: vs)
  | _ :: w :: vs, .pop => some (w :: vs)
  | vs, _ => some vs

end Operations

section Views

variable {κ α : Type}

/-- What a cache shows over what is below it. -/
def look (below : View κ α) (c : Cache κ α) : View κ α := fun k =>
  match c.entries k with
  | some e => e.value
  | none => below k

def view (table : View κ α) : List (Cache κ α) → View κ α
  | [] => table
  | c :: cs => look (view table cs) c

def lower (table : View κ α) : List (Cache κ α) → List (View κ α)
  | [] => []
  | _ :: cs => view table cs :: lower table cs

/-- What each level shows, down to the table. -/
def views (table : View κ α) (cs : List (Cache κ α)) : List (View κ α) :=
  view table cs :: lower table cs

/-- The entries that a cache may have over a value below it. -/
structure Fits (below : Option α) (e : Entry α) : Prop where
  removed : e.value = none → e.dirty = true ∧ e.fresh = false
  fresh : e.fresh = true → e.dirty = true ∧ below = none
  clean : e.dirty = false → e.value = below

structure Valid (below : View κ α) (c : Cache κ α) : Prop where
  linked : ∀ k, k ∈ c.flagged ↔ ∃ e, c.entries k = some e ∧ e.dirty = true
  nodup : c.flagged.Nodup
  fits : ∀ k e, c.entries k = some e → Fits (below k) e

/-- Every cache is valid over what is below it. -/
def AllValid (table : View κ α) : List (Cache κ α) → Prop
  | [] => True
  | c :: cs => Valid (view table cs) c ∧ AllValid table cs

variable {below : View κ α} {c : Cache κ α} {k : κ} {e : Entry α} {v : α}

theorem look_of_some (h : c.entries k = some e) : look below c k = e.value := by
  simp only [look, h]

theorem look_of_none (h : c.entries k = none) : look below c k = below k := by
  simp only [look, h]

theorem Valid.clean_of_not_mem (hc : Valid below c) (h : k ∉ c.flagged)
    (he : c.entries k = some e) : e.dirty = false := by
  by_contra hdirty
  exact h ((hc.linked k).mpr ⟨e, he, by simpa using hdirty⟩)

theorem valid_empty : Valid below (Cache.empty : Cache κ α) :=
  ⟨fun _ => by simp [Cache.empty], nodup_nil, fun _ _ h => by simp [Cache.empty] at h⟩

variable [DecidableEq κ]

/-- There is a cache for every change of finitely many values. -/
theorem exists_valid {above : View κ α} (ks : List κ) (h : ∀ k ∉ ks, above k = below k) :
    ∃ c, Valid below c ∧ look below c = above := by
  refine ⟨⟨fun k => if k ∈ ks then some ⟨above k, true, false⟩ else none, ks.dedup⟩,
    ⟨fun k => ?_, nodup_dedup ks, fun k e he => ?_⟩, ?_⟩
  · by_cases hk : k ∈ ks <;> simp [hk]
  · simp only [ite_none_right_eq_some, some.injEq] at he
    obtain ⟨-, rfl⟩ := he
    exact ⟨by simp, by simp, by simp⟩
  · funext k
    by_cases hk : k ∈ ks <;> simp [look, hk, h]

/-- The entry at one key is set or dropped. -/
theorem Valid.set (hc : Valid below c) {f : Option (Entry α)} {ks : List κ} (hnodup : ks.Nodup)
    (hk : k ∈ ks ↔ ∃ e, f = some e ∧ e.dirty = true) (hks : ∀ j ≠ k, j ∈ ks ↔ j ∈ c.flagged)
    (hf : ∀ e, f = some e → Fits (below k) e) :
    Valid below ⟨update c.entries k f, ks⟩ where
  nodup := hnodup
  linked j := by
    by_cases hj : j = k
    · simp [hj, hk]
    · simp [hj, hks j hj, hc.linked]
  fits j e he := by
    by_cases hj : j = k
    · subst hj
      exact hf e ((update_self j f c.entries).symm.trans he)
    · exact hc.fits j e ((update_of_ne hj f c.entries).symm.trans he)

theorem Valid.mark (hc : Valid below c) (he : Fits (below k) e) (hdirty : e.dirty = true) :
    Valid below (c.mark k e) := by
  refine hc.set ?_ ?_ (fun j hj => ?_) (fun f hf => some.inj hf ▸ he)
  · split
    · exact hc.nodup
    · exact nodup_append.mpr ⟨hc.nodup, nodup_singleton k, by grind⟩
  · refine iff_of_true ?_ ⟨e, rfl, hdirty⟩
    split <;> simp_all
  · split <;> simp [hj]

theorem Valid.erase (hc : Valid below c) (k : κ) : Valid below (c.erase k) :=
  hc.set (hc.nodup.filter _) (by simp) (fun j hj => by simp [hj]) (by simp)

theorem Valid.cached (hc : Valid below c) (hnone : c.entries k = none) (hv : below k = some v) :
    Valid below (c.cached k v) :=
  hc.set hc.nodup (by simp [hc.linked, hnone]) (fun _ _ => Iff.rfl)
    fun e he => some.inj he ▸ ⟨by simp, by simp, by simp [hv]⟩

theorem look_set {f : Option (Entry α)} {ks : List κ} :
    look below ⟨update c.entries k f, ks⟩ =
      update (look below c) k (f.elim (below k) Entry.value) := by
  funext j
  by_cases hj : j = k
  · cases f <;> simp [look, hj]
  · simp [look, hj]

theorem look_mark : look below (c.mark k e) = update (look below c) k e.value :=
  look_set

theorem look_erase : look below (c.erase k) = update (look below c) k (below k) :=
  look_set

theorem look_cached (hnone : c.entries k = none) (hv : below k = some v) :
    look below (c.cached k v) = look below c :=
  look_set.trans (update_eq_self_iff.mpr ((look_of_none hnone).trans hv).symm)

theorem Valid.uncache (hc : Valid below c) (k : κ) :
    Valid below (c.uncache k) ∧ look below (c.uncache k) = look below c := by
  unfold Cache.uncache
  cases he : c.entries k with
  | none => exact ⟨hc, rfl⟩
  | some e =>
    cases hdirty : e.dirty with
    | true => simpa [hdirty] using hc
    | false =>
      simp only [hdirty, Bool.false_eq_true, if_false]
      refine ⟨hc.erase k, ?_⟩
      rw [look_erase, ← (hc.fits k e he).clean hdirty, ← look_of_some he, update_eq_self]

theorem Valid.spend (hc : Valid below c)
    (hfetched : (c.entries k).bind Entry.value = look below c k) :
    Valid below (c.spend k).2 ∧
      look below (c.spend k).2 = update (look below c) k none := by
  unfold Cache.spend
  cases he : c.entries k with
  | none =>
    rw [he] at hfetched
    exact ⟨hc, (update_eq_self_iff.mpr hfetched).symm⟩
  | some e =>
    cases hfresh : e.fresh with
    | true =>
      simp only [hfresh, if_true]
      exact ⟨hc.erase k, by rw [look_erase, ((hc.fits k e he).fresh hfresh).2]⟩
    | false =>
      simp only [hfresh, Bool.false_eq_true, if_false]
      exact ⟨hc.mark ⟨by simp, by simp, by simp⟩ rfl, look_mark⟩

/-- The cache takes a value where nothing is shown, or where it may overwrite. -/
theorem Valid.add (hc : Valid below c) (k : κ) (v : α) (possibleOverwrite : Bool)
    (hfree : possibleOverwrite = false → look below c k = none) :
    ∃ c', c.add k v possibleOverwrite = .ok c' ∧ Valid below c' ∧
      look below c' = update (look below c) k (some v) := by
  have hput (e : Entry α) (hvalue : e.value = some v) (hdirty : e.dirty = true)
      (hfresh : e.fresh = true → below k = none) :
      Valid below (c.mark k e) ∧
        look below (c.mark k e) = update (look below c) k (some v) := by
    refine ⟨hc.mark ⟨by simp [hvalue], fun h => ⟨hdirty, hfresh h⟩, by simp [hdirty]⟩ hdirty, ?_⟩
    rw [look_mark, hvalue]
  unfold Cache.add
  cases he : c.entries k with
  | none =>
    refine ⟨_, if_neg (by simp), hput _ rfl rfl fun h => ?_⟩
    exact (look_of_none he).symm.trans (hfree (by simpa using h))
  | some e =>
    have hvalue : possibleOverwrite = false → e.value = none := look_of_some he ▸ hfree
    refine ⟨_, if_neg (by cases possibleOverwrite <;> simp_all), hput _ rfl rfl fun h => ?_⟩
    rcases (Bool.or_eq_true _ _).mp h with hfresh | hnew
    · exact ((hc.fits k e he).fresh hfresh).2
    · -- a removed entry is dirty, so it is not made fresh again
      simp only [getD_some, Bool.and_eq_true, Bool.not_eq_true'] at hnew
      have hdirty := ((hc.fits k e he).removed (hvalue hnew.1)).1
      simp [hdirty] at hnew

/-- An entry of a valid cache above is taken, and shown from then on. -/
theorem Valid.writeEntry (hc : Valid below c) (hdirty : e.dirty = true)
    (he : Fits (look below c k) e) :
    ∃ c', c.writeEntry k e = .ok c' ∧ Valid below c' ∧
      look below c' = update (look below c) k e.value := by
  unfold Cache.writeEntry
  rw [if_neg (by simp [hdirty])]
  cases hus : c.entries k with
  | none =>
    rw [look_of_none hus] at he
    dsimp only
    split
    next h =>
      simp only [Bool.and_eq_true, isNone_iff_eq_none] at h
      simp [(he.removed h.2).2] at h
    next =>
      exact ⟨_, rfl, hc.mark ⟨fun h => ⟨rfl, (he.removed h).2⟩, fun h => ⟨rfl, (he.fresh h).2⟩,
        by simp⟩ rfl, look_mark⟩
  | some us =>
    rw [look_of_some hus] at he
    have hfits := hc.fits k us hus
    dsimp only
    rw [if_neg fun h => by
      simp only [Bool.and_eq_true] at h
      simp [(he.fresh h.1).2] at h]
    split
    next h =>
      simp only [Bool.and_eq_true, isNone_iff_eq_none] at h
      refine ⟨_, rfl, hc.erase k, ?_⟩
      rw [look_erase, h.2, (hfits.fresh h.1).2]
    next h =>
      refine ⟨_, rfl, hc.mark ⟨fun hnone => ⟨rfl, ?_⟩, fun h => ⟨rfl, (hfits.fresh h).2⟩, by simp⟩
        rfl, look_mark⟩
      simpa [show e.value = none from hnone] using h

end Views

section Stacks

variable {κ α : Type} [DecidableEq κ] {table : View κ α} {cs : List (Cache κ α)}
variable {ks : List κ} {below : View κ α}

/-- A lookup gives what is shown, and leaves on every level what was shown. -/
theorem fetch_spec (k : κ) (h : AllValid table cs) :
    AllValid table (fetch table k cs) ∧ views table (fetch table k cs) = views table cs ∧
    fetched table k (fetch table k cs) = view table cs k := by
  induction cs with
  | nil => exact ⟨trivial, rfl, rfl⟩
  | cons c cs ih =>
    unfold fetch
    cases he : c.entries k with
    | some e => exact ⟨h, rfl, by rw [fetched, he, view, look_of_some he]; rfl⟩
    | none =>
      obtain ⟨hvalid, hviews, hfetched⟩ := ih h.2
      generalize fetch table k cs = cs' at *
      have hview : view table cs' = view table cs := (cons.inj hviews).1
      have hc : Valid (view table cs') c := hview ▸ h.1
      have hkept : views table (c :: cs') = views table (c :: cs) :=
        congrArg₂ (look · c :: ·) hview hviews
      rw [view, look_of_none he, ← hfetched]
      dsimp only
      cases hv : fetched table k cs' with
      | none => exact ⟨⟨hc, hvalid⟩, hkept, by rw [fetched, he]; rfl⟩
      | some v =>
        have hbelow : view table cs' k = some v := by rw [hview, ← hfetched, hv]
        refine ⟨⟨hc.cached he hbelow, hvalid⟩, ?_, by simp [fetched, Cache.cached]⟩
        rw [← hkept]
        exact congrArg (· :: views table cs') (look_cached he hbelow)

theorem spend_spec (k : κ) {c : Cache κ α} (h : AllValid table (c :: cs)) :
    AllValid table (spend table k (c :: cs)).2 ∧
    views table (spend table k (c :: cs)).2 =
      update (view table (c :: cs)) k none :: views table cs := by
  obtain ⟨hvalid, hviews, hfetched⟩ := fetch_spec k h
  unfold spend
  generalize fetch table k (c :: cs) = r at *
  cases r with
  | nil => simp [views, lower] at hviews
  | cons c' cs' =>
    obtain ⟨hview, hbelow⟩ := cons.inj hviews
    rw [← hview] at hfetched ⊢
    obtain ⟨hspent, hlook⟩ := hvalid.1.spend hfetched
    exact ⟨⟨hspent, hvalid.2⟩, congrArg₂ (· :: ·) hlook hbelow⟩

/-- A view with the entries of some keys written over it. -/
def written (c : Cache κ α) (ks : List κ) (below : View κ α) : View κ α := fun k =>
  if k ∈ ks then (c.entries k).bind Entry.value else below k

theorem written_cons {c : Cache κ α} {k : κ} {e : Entry α} (he : c.entries k = some e) :
    written c ks (update below k e.value) = written c (k :: ks) below := by
  funext j
  by_cases hj : j = k
  · subst hj
    simp [written, he]
  · simp [written, hj]

theorem Valid.written_flagged {c : Cache κ α} (hc : Valid below c) :
    written c c.flagged below = look below c := by
  funext k
  by_cases hk : k ∈ c.flagged
  · obtain ⟨e, he, -⟩ := (hc.linked k).mp hk
    rw [look_of_some he, written, if_pos hk, he]
    rfl
  · rw [written, if_neg hk]
    cases he : c.entries k with
    | none => exact (look_of_none he).symm
    | some e => rw [look_of_some he, (hc.fits k e he).clean (hc.clean_of_not_mem hk he)]

/-- Writing some linked entries into the cache below. -/
theorem run_writeInto {c p : Cache κ α} (hnodup : ks.Nodup) (hp : Valid below p)
    (hks : ∀ k ∈ ks, ∃ e, c.entries k = some e ∧ e.dirty = true ∧ Fits (look below p k) e) :
    ∃ p', run (writeInto c) p ks = .ok p' ∧ Valid below p' ∧
      look below p' = written c ks (look below p) := by
  induction ks generalizing p with
  | nil => exact ⟨p, rfl, hp, by funext k; simp [written]⟩
  | cons k ks ih =>
    obtain ⟨hk, hnodup⟩ := nodup_cons.mp hnodup
    obtain ⟨e, he, hdirty, hfits⟩ := hks k mem_cons_self
    obtain ⟨q, hq, hvalid, hlook⟩ := hp.writeEntry hdirty hfits
    have hrest : ∀ j ∈ ks, ∃ e, c.entries j = some e ∧ e.dirty = true ∧
        Fits (look below q j) e := by
      intro j hj
      rw [hlook, update_of_ne (ne_of_mem_of_not_mem hj hk)]
      exact hks j (mem_cons_of_mem _ hj)
    obtain ⟨p', hrun, hvalid', hlook'⟩ := ih hnodup hvalid hrest
    refine ⟨p', ?_, hvalid', by rw [hlook', hlook, written_cons he]⟩
    rw [run, bind_ok]
    exact ⟨q, by rw [writeInto, he]; exact hq, hrun⟩

theorem foldl_writeTable {c : Cache κ α} (table : View κ α)
    (hks : ∀ k ∈ ks, ∃ e, c.entries k = some e ∧ e.dirty = true) :
    ks.foldl (writeTable c) table = written c ks table := by
  induction ks generalizing table with
  | nil => funext k; simp [written]
  | cons k ks ih =>
    obtain ⟨⟨e, he, hdirty⟩, hrest⟩ := forall_mem_cons.mp hks
    rw [foldl_cons, ih _ hrest, ← written_cons he, writeTable, he]
    simp [hdirty]

/-- After a write the level below shows what the cache shows. -/
theorem batchWrite_spec {c : Cache κ α} (h : AllValid table (c :: cs)) :
    ∃ s, batchWrite c table cs = .ok s ∧ AllValid s.table s.caches ∧
      views s.table s.caches = view table (c :: cs) :: lower table cs := by
  obtain ⟨hc, hcs⟩ := h
  have hdirty k (hk : k ∈ c.flagged) := (hc.linked k).mp hk
  cases cs with
  | nil =>
    refine ⟨_, rfl, trivial, congrArg (· :: []) ?_⟩
    exact (foldl_writeTable table hdirty).trans hc.written_flagged
  | cons p cs =>
    obtain ⟨p', hrun, hvalid, hlook⟩ := run_writeInto hc.nodup hcs.1 fun k hk =>
      let ⟨e, he, hd⟩ := hdirty k hk
      ⟨e, he, hd, hc.fits k e he⟩
    refine ⟨⟨table, p' :: cs⟩, ?_, ⟨hvalid, hcs.2⟩, congrArg (· :: views table cs) ?_⟩
    · rw [batchWrite, hrun]
      rfl
    · exact hlook.trans hc.written_flagged

/-- The entries that stay after a write are clean ones of what is below. -/
theorem Valid.clean {c : Cache κ α} (hc : Valid below c) :
    Valid (look below c) c.clean ∧ look (look below c) c.clean = look below c := by
  have hentry (k : κ) (e : Entry α) (he : c.clean.entries k = some e) :
      e.dirty = false ∧ e.fresh = false ∧ e.value = look below c k ∧ e.value ≠ none := by
    by_cases hk : k ∈ c.flagged
    · obtain ⟨f, hf, -⟩ := (hc.linked k).mp hk
      rw [look_of_some hf]
      simp only [Cache.clean, if_pos hk, hf, bind_some, map_eq_some_iff] at he
      obtain ⟨v, hv, rfl⟩ := he
      exact ⟨rfl, rfl, hv.symm, by simp⟩
    · simp only [Cache.clean, if_neg hk] at he
      have hdirty := hc.clean_of_not_mem hk he
      obtain ⟨hremoved, hfresh, -⟩ := hc.fits k e he
      exact ⟨hdirty, by grind, (look_of_some he).symm, by grind⟩
  refine ⟨⟨fun k => ?_, nodup_nil, fun k e he => ?_⟩, ?_⟩
  · refine iff_of_false not_mem_nil fun ⟨e, he, hdirty⟩ => ?_
    simp [(hentry k e he).1] at hdirty
  · obtain ⟨-, hfresh, hvalue, hsome⟩ := hentry k e he
    exact ⟨fun h => absurd h hsome, by simp [hfresh], fun _ => hvalue⟩
  · funext k
    cases he : c.clean.entries k with
    | none => exact look_of_none he
    | some e => exact (look_of_some he).trans (hentry k e he).2.2.1

variable {s : Stack κ α} {vs : List (View κ α)}

/-- Where the plain tables take a step, the caches take it without an error and show the
same. -/
theorem step_refines {op : Op κ α} (h : AllValid s.table s.caches)
    (hop : viewStep (views s.table s.caches) op = some vs) :
    ∃ s', step s op = .ok s' ∧ AllValid s'.table s'.caches ∧ views s'.table s'.caches = vs := by
  obtain ⟨table, caches⟩ := s
  cases caches with
  | nil =>
    cases op with
    | push =>
      cases hop
      exact ⟨_, rfl, ⟨valid_empty, trivial⟩, rfl⟩
    | _ =>
      cases hop
      exact ⟨_, rfl, trivial, rfl⟩
  | cons c cs =>
    cases op with
    | push =>
      cases hop
      exact ⟨_, rfl, ⟨valid_empty, h⟩, rfl⟩
    | pop =>
      cases hop
      exact ⟨_, rfl, h.2, rfl⟩
    | fetch k =>
      cases hop
      obtain ⟨hvalid, hviews, -⟩ := fetch_spec k h
      exact ⟨_, rfl, hvalid, hviews⟩
    | spend k =>
      cases hop
      obtain ⟨hvalid, hviews⟩ := spend_spec k h
      exact ⟨_, rfl, hvalid, hviews⟩
    | uncache k =>
      cases hop
      obtain ⟨hvalid, hlook⟩ := h.1.uncache k
      exact ⟨_, rfl, ⟨hvalid, h.2⟩, congrArg (· :: views table cs) hlook⟩
    | add k v possibleOverwrite =>
      simp only [views, lower, viewStep, ite_none_left_eq_some, some.injEq] at hop
      obtain ⟨hfree, rfl⟩ := hop
      obtain ⟨c', hadd, hvalid, hlook⟩ := h.1.add k v possibleOverwrite
        fun hno => by simpa [hno, view] using hfree
      refine ⟨⟨table, c' :: cs⟩, ?_, ⟨hvalid, h.2⟩, congrArg (· :: views table cs) hlook⟩
      simp only [step, hadd]
      rfl
    | write keep =>
      cases hop
      obtain ⟨s, hwrite, hvalid, hviews⟩ := batchWrite_spec h
      have hview : view s.table s.caches = look (view table cs) c := (cons.inj hviews).1
      have htop : Valid (view s.table s.caches) (if keep then c.clean else .empty) ∧
          look (view s.table s.caches) (if keep then c.clean else .empty) =
            look (view table cs) c := by
        rw [hview]
        cases keep with
        | true => exact h.1.clean
        | false => exact ⟨valid_empty, rfl⟩
      refine ⟨⟨s.table, _ :: s.caches⟩, ?_, ⟨htop.1, hvalid⟩, congrArg₂ (· :: ·) htop.2 hviews⟩
      simp only [step, hwrite]
      rfl

end Stacks
end Pricoin.WriteBackCaches
