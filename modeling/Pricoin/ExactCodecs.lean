import Pricoin.Codecs

/-!
Codecs that read only what they write. A codec is exact when every stream that it reads
a value from begins with what it writes for that value, so that no value has two
encodings. Pairs, counted lists and images under a change of type are exact where their
parts are and the change of type loses nothing that is read.
-/
namespace Pricoin.ExactCodecs

open ByteStreams Codecs Codec List Option

variable {s rest : List UInt8}

variable {α β : Type}
variable {c : Codec α}

/-- What was read is what would be written, and the rest is untouched. -/
def Exact (c : Codec α) : Prop :=
  ∀ s a rest, c.read s = some (a, rest) → s = c.write a ++ rest

theorem read_pair {d : Codec β} {p : α × β} (h : (c.pair d).read s = some (p, rest)) :
    ∃ mid, c.read s = some (p.1, mid) ∧ d.read mid = some (p.2, rest) := by
  obtain ⟨⟨a, mid⟩, ha, h⟩ := bind_eq_some_iff.mp h
  obtain ⟨⟨b, rest'⟩, hb, h⟩ := bind_eq_some_iff.mp h
  obtain ⟨rfl, rfl⟩ := Prod.mk.inj (some.inj h)
  exact ⟨mid, ha, hb⟩

theorem Exact.pair {d : Codec β} (hc : Exact c) (hd : Exact d) : Exact (c.pair d) := by
  intro s p rest h
  obtain ⟨mid, ha, hb⟩ := read_pair h
  rw [hc s p.1 mid ha, hd mid p.2 rest hb]
  exact (append_assoc _ _ _).symm

theorem Exact.via (hc : Exact c) {f : β → α} {g : α → β}
    (hinv : ∀ s a rest, c.read s = some (a, rest) → f (g a) = a) : Exact (c.via f g) := by
  intro s b rest h
  obtain ⟨⟨a, rest'⟩, ha, h⟩ := map_eq_some_iff.mp h
  obtain ⟨rfl, rfl⟩ := Prod.mk.inj h
  change s = c.write (f (g a)) ++ rest'
  rw [hinv s a rest' ha]
  exact hc s a rest' ha

section Blocks

theorem exact_block (n : ℕ) : Exact (block n) := fun _ _ _ => eq_append_of_readBytes

theorem exact_byte : Exact byte := by
  intro s b rest h
  cases s with
  | nil => contradiction
  | cons c s =>
    obtain ⟨rfl, rfl⟩ := Prod.mk.inj (some.inj h)
    rfl

theorem leBytes_leValue (l : List UInt8) : leBytes l.length (leValue l) = l := by
  induction l with
  | nil => rfl
  | cons b l ih =>
    have hlt := b.toNat_lt
    have hlow : UInt8.ofNat (b.toNat + 256 * leValue l) = b := by
      apply UInt8.toNat_inj.mp
      rw [UInt8.toNat_ofNat']
      omega
    have hhigh : (b.toNat + 256 * leValue l) / 256 = leValue l := by omega
    rw [length_cons, leValue, leBytes, hlow, hhigh, ih]

theorem leValue_lt (l : List UInt8) : leValue l < 256 ^ l.length := by
  induction l with
  | nil => exact Nat.one_pos
  | cons b l ih =>
    have hlt := b.toNat_lt
    rw [leValue, length_cons, Nat.pow_succ']
    omega

theorem lt_of_read_uint {w n : ℕ} (h : (uint w).read s = some (n, rest)) : n < 256 ^ w := by
  obtain ⟨⟨b, rest'⟩, -, h⟩ := map_eq_some_iff.mp h
  obtain ⟨rfl, rfl⟩ := Prod.mk.inj h
  have hlt := leValue_lt b.toList
  rwa [b.toList_length] at hlt

theorem exact_uint (w : ℕ) : Exact (uint w) := by
  intro s n rest h
  obtain ⟨⟨b, rest'⟩, hb, h⟩ := map_eq_some_iff.mp h
  obtain ⟨rfl, rfl⟩ := Prod.mk.inj h
  have hbytes : (leBlock w (leValue b.toList)).toList = b.toList := by
    have hback := leBytes_leValue b.toList
    rwa [b.toList_length] at hback
  change s = (leBlock w (leValue b.toList)).toList ++ rest'
  rw [hbytes]
  exact eq_append_of_readBytes hb

theorem exact_int64 : Exact int64 := by
  refine (exact_uint 8).via fun s n rest h => ?_
  have hlt := lt_of_read_uint h
  unfold toUint64 toInt64
  split <;> omega

end Blocks

section Vectors

theorem read_canonical {w least n : ℕ} (h : readCanonical w least s = some (n, rest)) :
    s = leBytes w n ++ rest ∧ least ≤ n ∧ n < 256 ^ w := by
  obtain ⟨⟨n', rest'⟩, hn, h⟩ := bind_eq_some_iff.mp h
  dsimp only at h
  split at h
  · contradiction
  · rename_i hleast
    obtain ⟨rfl, rfl⟩ := Prod.mk.inj (some.inj h)
    exact ⟨exact_uint w _ _ _ hn, Nat.not_lt.mp hleast, lt_of_read_uint hn⟩

theorem of_limit {limit n : ℕ} {x : Option (ℕ × List UInt8)} {rest : List UInt8}
    (h : (x.bind fun p => match p with
      | (m, s) => if limit < m then none else some (m, s)) = some (n, rest)) :
    x = some (n, rest) := by
  obtain ⟨⟨m, s⟩, hx, h⟩ := bind_eq_some_iff.mp h
  dsimp only at h
  split at h
  · contradiction
  · rw [hx, h]

theorem le_of_limit {limit n : ℕ} {x : Option (ℕ × List UInt8)} {rest : List UInt8}
    (h : (x.bind fun p => match p with
      | (m, s) => if limit < m then none else some (m, s)) = some (n, rest)) :
    n ≤ limit := by
  obtain ⟨⟨m, s⟩, -, h⟩ := bind_eq_some_iff.mp h
  dsimp only at h
  split at h
  · contradiction
  · rename_i hle
    obtain ⟨rfl, rfl⟩ := Prod.mk.inj (some.inj h)
    exact Nat.not_lt.mp hle

theorem le_of_readCompactSize {limit n : ℕ} {s rest : List UInt8}
    (h : readCompactSize limit s = some (n, rest)) : n ≤ limit := by
  cases s with
  | nil => contradiction
  | cons ch s =>
    rw [readCompactSize] at h
    split at h
    · exact le_of_limit h
    split at h
    · exact le_of_limit h
    split at h
    · exact le_of_limit h
    · exact le_of_limit h

/-- A count is read from its shortest form only. -/
theorem exact_compactSize (limit : ℕ) : Exact (compactSize limit) := by
  intro s n rest h
  change readCompactSize limit s = some (n, rest) at h
  change s = writeCompactSize n ++ rest
  cases s with
  | nil => contradiction
  | cons ch s =>
    unfold writeCompactSize
    rw [readCompactSize] at h
    split at h
    · rename_i hsmall
      obtain ⟨rfl, rfl⟩ := Prod.mk.inj (some.inj (of_limit h))
      have hlt : ch.toNat < 253 := UInt8.lt_iff_toNat_lt.mp hsmall
      rw [if_pos hlt, UInt8.ofNat_toNat]
      rfl
    rename_i hsmall
    split at h
    · rename_i hmarker
      obtain ⟨rfl, hlow, hhigh⟩ := read_canonical (of_limit h)
      rw [if_neg (by omega), if_pos (by omega), hmarker]
      rfl
    rename_i h253
    split at h
    · rename_i hmarker
      obtain ⟨rfl, hlow, hhigh⟩ := read_canonical (of_limit h)
      rw [if_neg (by omega), if_neg (by omega), if_pos (by omega), hmarker]
      rfl
    rename_i h254
    obtain ⟨rfl, hlow, hhigh⟩ := read_canonical (of_limit h)
    have hmarker : ch.toNat = 255 := by
      have hlt := ch.toNat_lt
      have hlarge : ¬ ch.toNat < 253 := fun hless => hsmall (UInt8.lt_iff_toNat_lt.mpr hless)
      have hne : ch.toNat ≠ 253 := fun heq => h253 (UInt8.toNat_inj.mp heq)
      have hne' : ch.toNat ≠ 254 := fun heq => h254 (UInt8.toNat_inj.mp heq)
      omega
    rw [if_neg (by omega), if_neg (by omega), if_neg (by omega),
      (UInt8.toNat_inj.mp hmarker : ch = 255)]
    rfl

theorem eq_append_of_readMany {c : Codec α} (hc : Exact c) {n : ℕ} {s rest : List UInt8}
    {as : List α} (h : c.readMany n s = some (as, rest)) :
    as.length = n ∧ s = as.flatMap c.write ++ rest := by
  induction n generalizing s as with
  | zero =>
    obtain ⟨rfl, rfl⟩ := Prod.mk.inj (some.inj h)
    exact ⟨rfl, rfl⟩
  | succ n ih =>
    obtain ⟨⟨a, mid⟩, ha, h⟩ := bind_eq_some_iff.mp h
    obtain ⟨⟨tail, rest'⟩, htail, h⟩ := bind_eq_some_iff.mp h
    obtain ⟨rfl, rfl⟩ := Prod.mk.inj (some.inj h)
    obtain ⟨hlength, hmid⟩ := ih htail
    refine ⟨congrArg (· + 1) hlength, ?_⟩
    rw [hc s a mid ha, hmid, flatMap_cons, append_assoc]

/-- What holds of every value that is read holds of the members of a list. -/
theorem forall_mem_of_readMany {c : Codec α} {p : α → Prop}
    (hc : ∀ s a rest, c.read s = some (a, rest) → p a) {n : ℕ} {s rest : List UInt8}
    {as : List α} (h : c.readMany n s = some (as, rest)) : ∀ a ∈ as, p a := by
  induction n generalizing s as with
  | zero =>
    obtain ⟨rfl, rfl⟩ := Prod.mk.inj (some.inj h)
    intro a ha
    cases ha
  | succ n ih =>
    obtain ⟨⟨a, mid⟩, ha, h⟩ := bind_eq_some_iff.mp h
    obtain ⟨⟨tail, rest'⟩, htail, h⟩ := bind_eq_some_iff.mp h
    obtain ⟨rfl, rfl⟩ := Prod.mk.inj (some.inj h)
    exact forall_mem_cons.mpr ⟨hc s a mid ha, ih htail⟩

theorem forall_mem_of_read_vector {c : Codec α} {p : α → Prop}
    (hc : ∀ s a rest, c.read s = some (a, rest) → p a) {limit : ℕ} {s rest : List UInt8}
    {as : List α} (h : (vector limit c).read s = some (as, rest)) : ∀ a ∈ as, p a := by
  obtain ⟨⟨n, mid⟩, -, h⟩ := bind_eq_some_iff.mp h
  exact forall_mem_of_readMany hc h

theorem Exact.vector {c : Codec α} (hc : Exact c) (limit : ℕ) : Exact (vector limit c) := by
  intro s as rest h
  obtain ⟨⟨n, mid⟩, hn, h⟩ := bind_eq_some_iff.mp h
  obtain ⟨rfl, hmid⟩ := eq_append_of_readMany hc h
  rw [exact_compactSize limit s as.length mid hn, hmid]
  exact (append_assoc _ _ _).symm

theorem exact_byteVector (limit : ℕ) : Exact (byteVector limit) := exact_byte.vector limit

theorem length_le_of_read_vector {c : Codec α} (hc : Exact c) {limit : ℕ} {s rest : List UInt8}
    {as : List α} (h : (vector limit c).read s = some (as, rest)) : as.length ≤ limit := by
  obtain ⟨⟨n, mid⟩, hn, h⟩ := bind_eq_some_iff.mp h
  rw [(eq_append_of_readMany hc h).1]
  exact le_of_readCompactSize hn

end Vectors

end Pricoin.ExactCodecs
