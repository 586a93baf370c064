import Mathlib.Data.Finset.Basic
import Mathlib.Data.Finset.Dedup
import Mathlib.Data.List.Nodup

/-!
A set whose members are also filed under tags, in buckets of an ordered map.
A member is filed when it first enters the set, so dropping one bucket takes
exactly that bucket's members out. The bookkeeping is right when the buckets
partition the set; every operation here keeps that.
-/
namespace Pricoin.TaggedSets

structure TaggedSet (κ α : Type*) (cmp : κ → κ → Ordering) where
  members : Finset α
  buckets : Std.ExtTreeMap κ (List α) cmp

variable {κ α : Type*} {cmp : κ → κ → Ordering} [Std.TransCmp cmp]
variable {s t : TaggedSet κ α cmp} {es : List (κ × List α)} {seen : Finset α} {as : List α} {k : κ}

namespace TaggedSet

def empty : TaggedSet κ α cmp := ⟨∅, ∅⟩

/-- The members filed under a tag, none for a tag without a bucket. -/
def bucket (s : TaggedSet κ α cmp) (k : κ) : List α := (s.buckets[k]?).getD []

/-- Make the tag's bucket exist. -/
def touch (s : TaggedSet κ α cmp) (k : κ) : TaggedSet κ α cmp :=
  ⟨s.members, s.buckets.insertIfNew k []⟩

/-- Equal as far as the set and the non-empty buckets go. -/
def Same (s t : TaggedSet κ α cmp) : Prop :=
  s.members = t.members ∧ ∀ k, s.bucket k = t.bucket k

/-- The buckets partition the set. -/
structure WellFormed (s : TaggedSet κ α cmp) : Prop where
  covered : ∀ a, a ∈ s.members ↔ ∃ k, a ∈ s.bucket k
  apart : ∀ k k' a, a ∈ s.bucket k → a ∈ s.bucket k' → k = k'
  nodup : ∀ k, (s.bucket k).Nodup

theorem bucket_empty (k : κ) : (empty : TaggedSet κ α cmp).bucket k = [] := by
  simp [bucket, empty]

theorem empty_wellFormed : (empty : TaggedSet κ α cmp).WellFormed where
  covered a := by simp [bucket_empty]; simp [empty]
  apart k k' a h := by simp [bucket_empty] at h
  nodup k := by simp [bucket_empty]

theorem getElem?_touch [DecidableEq κ] [Std.LawfulEqCmp cmp] (s : TaggedSet κ α cmp) (k k' : κ) :
    (s.touch k).buckets[k']? = if k = k' then some (s.bucket k) else s.buckets[k']? := by
  simp only [touch, bucket, Std.ExtTreeMap.getElem?_insertIfNew]
  by_cases hk : k = k'
  · subst hk
    by_cases hm : k ∈ s.buckets <;> simp [hm]
  · simp [hk]

/-- The non-empty buckets in tag order, as they are written out. -/
def entries (s : TaggedSet κ α cmp) : List (κ × List α) :=
  s.buckets.toList.filter (fun e => !e.2.isEmpty)

theorem mem_entries [Std.LawfulEqCmp cmp] {e : κ × List α} :
    e ∈ s.entries ↔ s.buckets[e.1]? = some e.2 ∧ e.2 ≠ [] := by
  obtain ⟨k, as⟩ := e
  simp [entries, Std.ExtTreeMap.mem_toList_iff_getElem?_eq_some]

theorem entries_tags_nodup (s : TaggedSet κ α cmp) : (s.entries.map Prod.fst).Nodup := by
  refine List.Nodup.sublist (List.Sublist.map _ List.filter_sublist) ?_
  rw [Std.ExtTreeMap.map_fst_toList_eq_keys]
  exact Std.ExtTreeMap.nodup_keys

theorem WellFormed.entries_nodup [Std.LawfulEqCmp cmp] (h : s.WellFormed) :
    (s.entries.flatMap Prod.snd).Nodup := by
  have hbucket : ∀ e ∈ s.entries, s.bucket e.1 = e.2 := by
    intro e he
    rw [bucket, (mem_entries.mp he).1, Option.getD_some]
  refine List.nodup_flatMap.mpr ⟨fun e he => hbucket e he ▸ h.nodup e.1, ?_⟩
  have htags : s.entries.Pairwise (fun e e' => e.1 ≠ e'.1) :=
    List.pairwise_map.mp s.entries_tags_nodup
  refine htags.imp_of_mem fun {e e'} he he' hne a ha ha' => ?_
  rw [← hbucket e he] at ha
  rw [← hbucket e' he'] at ha'
  exact hne (h.apart _ _ _ ha ha')

private theorem filter_tag_of_nodup [DecidableEq κ] (htags : (es.map Prod.fst).Nodup) :
    (∀ e ∈ es, (es.filter (fun e' => e'.1 = e.1)).flatMap Prod.snd = e.2) ∧
    ∀ k, k ∉ es.map Prod.fst → (es.filter (fun e' => e'.1 = k)).flatMap Prod.snd = [] := by
  induction es with
  | nil => simp
  | cons e rest ih =>
    simp only [List.map_cons, List.nodup_cons] at htags
    obtain ⟨hin, hout⟩ := ih htags.2
    refine ⟨fun e' he' => ?_, fun k hk => ?_⟩
    · rcases List.mem_cons.mp he' with rfl | he'
      · simp [hout _ htags.1]
      · have hne : e.1 ≠ e'.1 := by
          intro heq
          exact htags.1 (heq ▸ List.mem_map_of_mem he')
        simp [hne, hin e' he']
    · simp only [List.map_cons, List.mem_cons, not_or] at hk
      simp [Ne.symm hk.1, hout k hk.2]

theorem Same.refl (s : TaggedSet κ α cmp) : s.Same s := ⟨rfl, fun _ => rfl⟩

theorem Same.symm (h : s.Same t) : t.Same s :=
  ⟨h.1.symm, fun k => (h.2 k).symm⟩

theorem Same.trans {u : TaggedSet κ α cmp} (h : s.Same t) (h' : t.Same u) : s.Same u :=
  ⟨h.1.trans h'.1, fun k => (h.2 k).trans (h'.2 k)⟩

end TaggedSet

variable [DecidableEq α]

namespace TaggedSet

/-- Enter one member under a tag. A member already in the set stays where it is. -/
def insertInto (s : TaggedSet κ α cmp) (k : κ) (a : α) : TaggedSet κ α cmp :=
  if a ∈ s.members then s
  else ⟨insert a s.members, s.buckets.insert k (s.bucket k ++ [a])⟩

def addAll (s : TaggedSet κ α cmp) (k : κ) (as : List α) : TaggedSet κ α cmp :=
  as.foldl (fun t a => t.insertInto k a) (s.touch k)

def loadAll (s : TaggedSet κ α cmp) (es : List (κ × List α)) : TaggedSet κ α cmp :=
  es.foldl (fun t e => t.addAll e.1 e.2) s

/-- Drop a tag together with the members filed under it. -/
def dropBucket (s : TaggedSet κ α cmp) (k : κ) : TaggedSet κ α cmp :=
  ⟨s.members \ (s.bucket k).toFinset, s.buckets.erase k⟩

def dropBuckets (s : TaggedSet κ α cmp) (ks : List κ) : TaggedSet κ α cmp :=
  ks.foldl dropBucket s

end TaggedSet

open TaggedSet List Option

/-- The part of a list that is new to a set, at each value's first occurrence. -/
def newlyAdded (seen : Finset α) : List α → List α
  | [] => []
  | a :: rest =>
      if a ∈ seen then newlyAdded seen rest
      else a :: newlyAdded (insert a seen) rest

theorem mem_newlyAdded {a : α} : a ∈ newlyAdded seen as ↔ a ∈ as ∧ a ∉ seen := by
  induction as generalizing seen with
  | nil => simp [newlyAdded]
  | cons b rest ih =>
    unfold newlyAdded
    by_cases hb : b ∈ seen
    · simp only [if_pos hb, ih, List.mem_cons]
      constructor
      · rintro ⟨h, hs⟩
        exact ⟨.inr h, hs⟩
      · rintro ⟨rfl | h, hs⟩
        · exact absurd hb hs
        · exact ⟨h, hs⟩
    · simp only [if_neg hb, List.mem_cons, ih, Finset.mem_insert, not_or]
      constructor
      · rintro (rfl | ⟨h, hne, hs⟩)
        · exact ⟨.inl rfl, hb⟩
        · exact ⟨.inr h, hs⟩
      · rintro ⟨h | h, hs⟩
        · exact .inl h
        · by_cases hab : a = b
          · exact .inl hab
          · exact .inr ⟨h, hab, hs⟩

theorem newlyAdded_nodup (seen : Finset α) (as : List α) : (newlyAdded seen as).Nodup := by
  induction as generalizing seen with
  | nil => exact nodup_nil
  | cons b rest ih =>
    unfold newlyAdded
    by_cases hb : b ∈ seen
    · simpa only [if_pos hb] using ih seen
    · simp only [if_neg hb, List.nodup_cons]
      refine ⟨?_, ih (insert b seen)⟩
      intro hmem
      exact (mem_newlyAdded.mp hmem).2 (Finset.mem_insert_self b seen)

/-- Distinct values none of which is in the set are all new. -/
theorem newlyAdded_of_fresh (hnd : as.Nodup) (hfresh : ∀ a ∈ as, a ∉ seen) :
    newlyAdded seen as = as := by
  induction as generalizing seen with
  | nil => rfl
  | cons b rest ih =>
    obtain ⟨hb, hrest⟩ := List.nodup_cons.mp hnd
    have hbs : b ∉ seen := hfresh b mem_cons_self
    rw [newlyAdded, if_neg hbs, ih hrest]
    intro a ha hmem
    rcases Finset.mem_insert.mp hmem with rfl | hs
    · exact hb ha
    · exact hfresh a (mem_cons_of_mem b ha) hs

theorem newlyAdded_newlyAdded (seen : Finset α) (as : List α) :
    newlyAdded seen (newlyAdded seen as) = newlyAdded seen as :=
  newlyAdded_of_fresh (newlyAdded_nodup seen as) (fun _ ha => (mem_newlyAdded.mp ha).2)

theorem newlyAdded_eq_nil : newlyAdded seen as = [] ↔ ∀ a ∈ as, a ∈ seen := by
  rw [eq_nil_iff_forall_not_mem]
  constructor
  · intro h a ha
    by_contra hs
    exact h a (mem_newlyAdded.mpr ⟨ha, hs⟩)
  · intro h a ha
    obtain ⟨hmem, hs⟩ := mem_newlyAdded.mp ha
    exact hs (h a hmem)

namespace TaggedSet

theorem members_insertInto (s : TaggedSet κ α cmp) (k : κ) (a : α) :
    (s.insertInto k a).members = insert a s.members := by
  unfold insertInto
  split
  · rename_i ha
    exact (Finset.insert_eq_of_mem ha).symm
  · rfl

theorem members_foldl (s : TaggedSet κ α cmp) (k : κ) (as : List α) :
    (as.foldl (fun t a => t.insertInto k a) s).members = s.members ∪ as.toFinset := by
  induction as generalizing s with
  | nil => simp
  | cons a rest ih =>
    rw [foldl_cons, ih, members_insertInto, toFinset_cons]
    ext b
    simp only [Finset.mem_union, Finset.mem_insert]
    tauto

theorem members_addAll (s : TaggedSet κ α cmp) (k : κ) (as : List α) :
    (s.addAll k as).members = s.members ∪ as.toFinset :=
  members_foldl (s.touch k) k as

theorem fresh_addAll (k : κ) {bs : List α} (hdisj : as.Disjoint bs)
    (hfresh : ∀ b ∈ bs, b ∉ s.members) : ∀ b ∈ bs, b ∉ (s.addAll k as).members := by
  intro b hb hm
  rw [members_addAll, Finset.mem_union, List.mem_toFinset] at hm
  rcases hm with hm | hm
  · exact hfresh b hb hm
  · exact hdisj hm hb

theorem loadAll_append (s : TaggedSet κ α cmp) (es es' : List (κ × List α)) :
    s.loadAll (es ++ es') = (s.loadAll es).loadAll es' := foldl_append

variable [DecidableEq κ] [Std.LawfulEqCmp cmp]

theorem getElem?_insertInto (s : TaggedSet κ α cmp) (k k' : κ) (a : α) :
    (s.insertInto k a).buckets[k']? =
      if k = k' ∧ a ∉ s.members then some (s.bucket k ++ [a]) else s.buckets[k']? := by
  unfold insertInto
  by_cases ha : a ∈ s.members
  · simp [ha]
  · simp only [if_neg ha, Std.ExtTreeMap.getElem?_insert]
    by_cases hk : k = k' <;> simp [hk, ha]

theorem getElem?_foldl (s : TaggedSet κ α cmp) (k k' : κ) (as : List α)
    (hk : s.buckets[k]? = some (s.bucket k)) :
    (as.foldl (fun t a => t.insertInto k a) s).buckets[k']? =
      if k = k' then some (s.bucket k ++ newlyAdded s.members as) else s.buckets[k']? := by
  induction as generalizing s with
  | nil =>
    by_cases hkk : k = k'
    · subst hkk
      simp [newlyAdded, hk]
    · simp [hkk]
  | cons a rest ih =>
    have hself : (s.insertInto k a).buckets[k]? = some ((s.insertInto k a).bucket k) := by
      rw [bucket, getElem?_insertInto]
      by_cases ha : a ∈ s.members <;> simp [ha, hk]
    have hbucket : (s.insertInto k a).bucket k =
        if a ∈ s.members then s.bucket k else s.bucket k ++ [a] := by
      rw [bucket, getElem?_insertInto]
      by_cases ha : a ∈ s.members <;> simp [ha, hk]
    rw [foldl_cons, ih _ hself, members_insertInto, getElem?_insertInto, hbucket]
    by_cases hkk : k = k' <;> by_cases ha : a ∈ s.members <;>
      simp [hkk, ha, newlyAdded, Finset.insert_eq_of_mem]

/-- Adding under a tag extends that tag's bucket by what is new to the set. -/
theorem getElem?_addAll (s : TaggedSet κ α cmp) (k k' : κ) (as : List α) :
    (s.addAll k as).buckets[k']? =
      if k = k' then some (s.bucket k ++ newlyAdded s.members as) else s.buckets[k']? := by
  have hbucket : (s.touch k).bucket k = s.bucket k := by
    rw [bucket, getElem?_touch, if_pos rfl, Option.getD_some]
  have hself : (s.touch k).buckets[k]? = some ((s.touch k).bucket k) := by
    rw [hbucket, getElem?_touch, if_pos rfl]
  unfold addAll
  rw [getElem?_foldl _ _ _ _ hself, hbucket, getElem?_touch]
  change (if k = k' then some (s.bucket k ++ newlyAdded s.members as) else _) = _
  by_cases hk : k = k' <;> simp [hk]

theorem bucket_addAll (s : TaggedSet κ α cmp) (k k' : κ) (as : List α) :
    (s.addAll k as).bucket k' =
      if k = k' then s.bucket k ++ newlyAdded s.members as else s.bucket k' := by
  rw [bucket, getElem?_addAll]
  by_cases hk : k = k' <;> simp [hk, bucket]

theorem bucket_dropBucket (s : TaggedSet κ α cmp) (k k' : κ) :
    (s.dropBucket k).bucket k' = if k = k' then [] else s.bucket k' := by
  simp only [bucket, dropBucket, Std.ExtTreeMap.getElem?_erase]
  by_cases hk : k = k' <;> simp [hk]

theorem Same.addAll (h : s.Same t) (k : κ) (as : List α) :
    (s.addAll k as).Same (t.addAll k as) := by
  refine ⟨by rw [members_addAll, members_addAll, h.1], fun k' => ?_⟩
  rw [bucket_addAll, bucket_addAll, h.1, h.2 k, h.2 k']

theorem Same.loadAll (h : s.Same t) (es : List (κ × List α)) :
    (s.loadAll es).Same (t.loadAll es) := by
  induction es generalizing s t with
  | nil => exact h
  | cons e es ih => exact ih (h.addAll e.1 e.2)

/-- Filtering out what the set already has before adding changes nothing. -/
theorem same_addAll_newlyAdded (s : TaggedSet κ α cmp) (k : κ) (as : List α) :
    (s.addAll k (newlyAdded s.members as)).Same (s.addAll k as) := by
  refine ⟨?_, fun k' => ?_⟩
  · rw [members_addAll, members_addAll]
    ext a
    simp only [Finset.mem_union, List.mem_toFinset, mem_newlyAdded]
    tauto
  · rw [bucket_addAll, bucket_addAll, newlyAdded_newlyAdded]

theorem WellFormed.addAll (h : s.WellFormed) (k : κ) (as : List α) :
    (s.addAll k as).WellFormed := by
  -- what is new to the set lies in no bucket yet
  have hnew : ∀ k' a, a ∈ newlyAdded s.members as → a ∉ s.bucket k' := by
    intro k' a ha hb
    exact (mem_newlyAdded.mp ha).2 ((h.covered a).mpr ⟨k', hb⟩)
  have hmem : ∀ k' a, a ∈ (s.addAll k as).bucket k' ↔
      a ∈ s.bucket k' ∨ (k = k' ∧ a ∈ newlyAdded s.members as) := by
    intro k' a
    rw [bucket_addAll]
    by_cases hk : k = k' <;> simp [hk]
  refine ⟨fun a => ?_, fun k₁ k₂ a h₁ h₂ => ?_, fun k' => ?_⟩
  · simp only [members_addAll, Finset.mem_union, List.mem_toFinset, hmem]
    constructor
    · rintro (ha | ha)
      · obtain ⟨k', hk'⟩ := (h.covered a).mp ha
        exact ⟨k', .inl hk'⟩
      · by_cases hs : a ∈ s.members
        · obtain ⟨k', hk'⟩ := (h.covered a).mp hs
          exact ⟨k', .inl hk'⟩
        · exact ⟨k, .inr ⟨rfl, mem_newlyAdded.mpr ⟨ha, hs⟩⟩⟩
    · rintro ⟨k', hk' | ⟨-, ha⟩⟩
      · exact .inl ((h.covered a).mpr ⟨k', hk'⟩)
      · exact .inr (mem_newlyAdded.mp ha).1
  · rcases (hmem k₁ a).mp h₁ with h₁ | ⟨hk₁, h₁⟩ <;>
      rcases (hmem k₂ a).mp h₂ with h₂ | ⟨hk₂, h₂⟩
    · exact h.apart k₁ k₂ a h₁ h₂
    · exact absurd h₁ (hnew k₁ a h₂)
    · exact absurd h₂ (hnew k₂ a h₁)
    · exact hk₁.symm.trans hk₂
  · rw [bucket_addAll]
    split
    · refine nodup_append'.mpr ⟨h.nodup k, newlyAdded_nodup _ _, ?_⟩
      exact fun a ha hn => hnew k a hn ha
    · exact h.nodup k'

theorem WellFormed.dropBucket (h : s.WellFormed) (k : κ) : (s.dropBucket k).WellFormed := by
  have hmem : ∀ k' a, a ∈ (s.dropBucket k).bucket k' ↔ k ≠ k' ∧ a ∈ s.bucket k' := by
    intro k' a
    rw [bucket_dropBucket]
    by_cases hk : k = k' <;> simp [hk]
  refine ⟨fun a => ?_, fun k₁ k₂ a h₁ h₂ => ?_, fun k' => ?_⟩
  · simp only [TaggedSet.dropBucket, Finset.mem_sdiff, List.mem_toFinset]
    constructor
    · rintro ⟨ha, hn⟩
      obtain ⟨k', hk'⟩ := (h.covered a).mp ha
      refine ⟨k', (hmem k' a).mpr ⟨?_, hk'⟩⟩
      rintro rfl
      exact hn hk'
    · rintro ⟨k', hk'⟩
      obtain ⟨hne, ha⟩ := (hmem k' a).mp hk'
      exact ⟨(h.covered a).mpr ⟨k', ha⟩, fun hb => hne (h.apart k k' a hb ha)⟩
  · exact h.apart k₁ k₂ a ((hmem k₁ a).mp h₁).2 ((hmem k₂ a).mp h₂).2
  · rw [bucket_dropBucket]
    split
    · exact nodup_nil
    · exact h.nodup k'

theorem WellFormed.dropBuckets (h : s.WellFormed) (ks : List κ) :
    (s.dropBuckets ks).WellFormed := by
  induction ks generalizing s with
  | nil => exact h
  | cons k rest ih => exact ih (h.dropBucket k)

/-- A fresh batch filed under a tag of its own is taken out again by dropping the tag. -/
theorem dropBucket_addAll (s : TaggedSet κ α cmp) (k : κ) (as : List α)
    (hk : k ∉ s.buckets) (hnd : as.Nodup) (hfresh : ∀ a ∈ as, a ∉ s.members) :
    (s.addAll k as).dropBucket k = s := by
  have hnone : s.buckets[k]? = none := Std.ExtTreeMap.getElem?_eq_none hk
  have hbucket : (s.addAll k as).bucket k = as := by
    rw [bucket_addAll, if_pos rfl, newlyAdded_of_fresh hnd hfresh, bucket, hnone]
    rfl
  have hmembers : (s.addAll k as).members \ as.toFinset = s.members := by
    rw [members_addAll]
    ext a
    simp only [Finset.mem_sdiff, Finset.mem_union, List.mem_toFinset]
    constructor
    · rintro ⟨h | h, hn⟩
      · exact h
      · exact absurd h hn
    · exact fun h => ⟨.inl h, fun ha => hfresh a ha h⟩
  have hbuckets : (s.addAll k as).buckets.erase k = s.buckets := by
    apply Std.ExtTreeMap.ext_getElem?
    intro k'
    rw [Std.ExtTreeMap.getElem?_erase, getElem?_addAll]
    by_cases hkk : k = k'
    · subst hkk
      simp [hnone]
    · simp [hkk]
  unfold TaggedSet.dropBucket
  rw [hbucket, hmembers, hbuckets]

theorem dropBucket_of_notMem (hk : k ∉ s.buckets) : s.dropBucket k = s := by
  have hbuckets : s.buckets.erase k = s.buckets := by
    apply Std.ExtTreeMap.ext_getElem?
    intro k'
    rw [Std.ExtTreeMap.getElem?_erase]
    by_cases hkk : k = k'
    · subst hkk
      simp [Std.ExtTreeMap.getElem?_eq_none hk]
    · simp [hkk]
  have hempty : s.bucket k = [] := by
    rw [bucket, Std.ExtTreeMap.getElem?_eq_none hk]
    rfl
  rw [TaggedSet.dropBucket, hbuckets, hempty, toFinset_nil, Finset.sdiff_empty]

theorem getElem?_dropBuckets (s : TaggedSet κ α cmp) (ks : List κ) (k : κ) :
    (s.dropBuckets ks).buckets[k]? = if k ∈ ks then none else s.buckets[k]? := by
  induction ks generalizing s with
  | nil => rfl
  | cons k' rest ih =>
    change ((s.dropBucket k').dropBuckets rest).buckets[k]? = _
    rw [ih, TaggedSet.dropBucket, Std.ExtTreeMap.getElem?_erase]
    by_cases hk : k' = k
    · simp [hk]
    · simp [hk, Ne.symm hk]

theorem bucket_dropBuckets (s : TaggedSet κ α cmp) (ks : List κ) (k : κ) :
    (s.dropBuckets ks).bucket k = if k ∈ ks then [] else s.bucket k := by
  rw [bucket, getElem?_dropBuckets]
  split <;> rfl

theorem WellFormed.loadAll (h : s.WellFormed) (es : List (κ × List α)) :
    (s.loadAll es).WellFormed := by
  induction es generalizing s with
  | nil => exact h
  | cons e rest ih => exact ih (h.addAll e.1 e.2)

/-- The tag under which a member is loaded, that of the first entry with it. -/
def filedUnder (es : List (κ × List α)) (a : α) : Option κ :=
  (es.find? (fun e => a ∈ e.2)).map Prod.fst

theorem mem_bucket_loadAll_iff {a : α} :
    a ∈ (s.loadAll es).bucket k ↔
      a ∈ s.bucket k ∨ (a ∉ s.members ∧ filedUnder es a = some k) := by
  induction es generalizing s with
  | nil => simp [TaggedSet.loadAll, filedUnder]
  | cons e es ih =>
    have hload : s.loadAll (e :: es) = (s.addAll e.1 e.2).loadAll es := rfl
    rw [hload, ih, bucket_addAll, members_addAll, Finset.mem_union, List.mem_toFinset]
    by_cases hmem : a ∈ e.2
    · have hfirst : filedUnder (e :: es) a = some e.1 := by
        simp [filedUnder, hmem]
      rw [hfirst, some.injEq]
      by_cases htag : e.1 = k
      · simp [htag, hmem, mem_newlyAdded]
      · simp [htag, hmem]
    · have hrest : filedUnder (e :: es) a = filedUnder es a := by
        simp [filedUnder, hmem]
      rw [hrest]
      by_cases htag : e.1 = k
      · simp [htag, hmem, mem_newlyAdded]
      · simp [htag, hmem]

/-- Entries whose values are all new land whole in the buckets of their tags. -/
theorem loadAll_of_fresh (s : TaggedSet κ α cmp) (es : List (κ × List α))
    (hnd : (es.flatMap Prod.snd).Nodup) (hfresh : ∀ a ∈ es.flatMap Prod.snd, a ∉ s.members) :
    (s.loadAll es).members = s.members ∪ (es.flatMap Prod.snd).toFinset ∧
    ∀ k, (s.loadAll es).bucket k =
      s.bucket k ++ (es.filter (fun e => e.1 = k)).flatMap Prod.snd := by
  induction es generalizing s with
  | nil => simp [TaggedSet.loadAll]
  | cons e rest ih =>
    simp only [flatMap_cons, nodup_append'] at hnd
    simp only [flatMap_cons, mem_append] at hfresh
    have hnew : newlyAdded s.members e.2 = e.2 :=
      newlyAdded_of_fresh hnd.1 (fun a ha => hfresh a (.inl ha))
    have hfresh' := fresh_addAll e.1 hnd.2.2 (fun a ha => hfresh a (.inr ha))
    obtain ⟨hmem, hbucket⟩ := ih (s.addAll e.1 e.2) hnd.2.1 hfresh'
    change ((s.addAll e.1 e.2).loadAll rest).members = _ ∧
      ∀ k, ((s.addAll e.1 e.2).loadAll rest).bucket k = _
    refine ⟨?_, fun k => ?_⟩
    · rw [hmem, members_addAll]
      ext a
      simp only [flatMap_cons, Finset.mem_union, List.mem_toFinset, mem_append]
      tauto
    · rw [hbucket, bucket_addAll, hnew]
      by_cases hk : e.1 = k <;> simp [hk]

theorem mem_bucket_loadAll (hnd : (es.flatMap Prod.snd).Nodup) {a : α} :
    a ∈ ((empty : TaggedSet κ α cmp).loadAll es).bucket k ↔
      ∃ e ∈ es, e.1 = k ∧ a ∈ e.2 := by
  rw [(loadAll_of_fresh empty es hnd (fun b _ => Finset.notMem_empty b)).2 k, bucket_empty,
    nil_append]
  simp only [mem_flatMap, mem_filter, decide_eq_true_eq, and_assoc]

/-- Writing the buckets out and loading them again gives the set back. -/
theorem WellFormed.same_loadAll_entries (h : s.WellFormed) :
    ((empty : TaggedSet κ α cmp).loadAll s.entries).Same s := by
  obtain ⟨hmem, hbucket⟩ := loadAll_of_fresh (empty : TaggedSet κ α cmp) s.entries h.entries_nodup
    (fun a _ => Finset.notMem_empty a)
  obtain ⟨hin, hout⟩ := filter_tag_of_nodup s.entries_tags_nodup
  have hbuckets : ∀ k, ((empty : TaggedSet κ α cmp).loadAll s.entries).bucket k = s.bucket k := by
    intro k
    rw [hbucket, bucket_empty, nil_append]
    by_cases hk : k ∈ s.entries.map Prod.fst
    · obtain ⟨e, he, rfl⟩ := mem_map.mp hk
      rw [hin e he, bucket, (mem_entries.mp he).1, Option.getD_some]
    · rw [hout k hk]
      by_contra hne
      cases hget : s.buckets[k]? with
      | none => simp [bucket, hget] at hne
      | some as =>
        simp only [bucket, hget, Option.getD_some] at hne
        exact hk (mem_map.mpr ⟨(k, as), mem_entries.mpr ⟨hget, Ne.symm hne⟩, rfl⟩)
  refine ⟨?_, hbuckets⟩
  ext a
  rw [(empty_wellFormed.loadAll s.entries).covered, h.covered]
  simp only [hbuckets]

end TaggedSet

end Pricoin.TaggedSets
