import Mathlib.Data.Vector.Basic

/-!
Byte strings as lists of bytes, with blocks of a fixed width, little-endian
integers and a reader that takes a block off the front of a stream. Reading
never looks past the block it returns, so what follows a written block is
recovered unchanged.
-/
namespace Pricoin.ByteStreams

variable {n v : ℕ} {s : List UInt8}

abbrev Bytes (n : ℕ) := List.Vector UInt8 n

/-- The bytes of a text of ASCII characters. -/
def ascii (text : String) : List UInt8 := text.toList.map fun c => UInt8.ofNat c.toNat

-- Blocks form a finite type, but a statement about the members of a list is decided along it.
attribute [instance (high)] List.decidableBAll List.decidableBEx

/-- Comparison from the first byte on, as memcmp does on blocks of one width. -/
def compareBytes {n : ℕ} (a b : Bytes n) : Ordering := compare a.toList b.toList

instance (n : ℕ) : Std.OrientedCmp (@compareBytes n) where
  eq_swap {a b} := @Std.OrientedCmp.eq_swap (List UInt8) compare _ a.toList b.toList

instance (n : ℕ) : Std.TransCmp (@compareBytes n) where
  isLE_trans {a b c} :=
    @Std.TransCmp.isLE_trans (List UInt8) compare _ a.toList b.toList c.toList

instance (n : ℕ) : Std.LawfulEqCmp (@compareBytes n) where
  compare_self {a} := @Std.ReflCmp.compare_self (List UInt8) compare _ a.toList
  eq_of_compare h := Subtype.ext (@Std.LawfulEqCmp.eq_of_compare (List UInt8) compare _ _ _ h)

/-- Take exactly `n` bytes off the front. A shorter stream gives nothing. -/
def readBytes (n : ℕ) (s : List UInt8) : Option (Bytes n × List UInt8) :=
  if h : n ≤ s.length then
    some (⟨s.take n, by simp [h]⟩, s.drop n)
  else none

theorem readBytes_append (b : Bytes n) (rest : List UInt8) :
    readBytes n (b.toList ++ rest) = some (b, rest) := by
  obtain ⟨l, rfl⟩ := b
  simp [readBytes]

theorem readBytes_eq_none (h : s.length < n) : readBytes n s = none := by
  simp [readBytes, Nat.not_le.mpr h]

/-- A successful read splits the stream into the block and the rest. -/
theorem eq_append_of_readBytes {rest : List UInt8} {b : Bytes n}
    (h : readBytes n s = some (b, rest)) : s = b.toList ++ rest := by
  unfold readBytes at h
  split at h
  · obtain ⟨rfl, rfl⟩ := Prod.mk.inj (Option.some.inj h)
    exact (List.take_append_drop n s).symm
  · contradiction

theorem length_of_readBytes {rest : List UInt8} {b : Bytes n} (h : readBytes n s = some (b, rest)) :
    s.length = n + rest.length := by
  rw [eq_append_of_readBytes h, List.length_append, b.toList_length]

/-- The low `w` bytes of `v`, least significant first. -/
def leBytes : ℕ → ℕ → List UInt8
  | 0, _ => []
  | w + 1, v => UInt8.ofNat v :: leBytes w (v / 256)

def leValue : List UInt8 → ℕ
  | [] => 0
  | b :: rest => b.toNat + 256 * leValue rest

theorem leBytes_length (w v : ℕ) : (leBytes w v).length = w := by
  induction w generalizing v with
  | zero => rfl
  | succ w ih => simp [leBytes, ih]

theorem leValue_leBytes (w v : ℕ) : leValue (leBytes w v) = v % 256 ^ w := by
  induction w generalizing v with
  | zero => simp [leBytes, leValue, Nat.mod_one]
  | succ w ih =>
    have hlow : (UInt8.ofNat v).toNat = v % 256 := UInt8.toNat_ofNat'
    rw [leBytes, leValue, ih, hlow, Nat.pow_succ', Nat.mod_mul]

def leBlock (w v : ℕ) : Bytes w := ⟨leBytes w v, leBytes_length w v⟩

theorem leValue_leBlock {w : ℕ} (h : v < 256 ^ w) : leValue (leBlock w v).toList = v := by
  change leValue (leBytes w v) = v
  rw [leValue_leBytes, Nat.mod_eq_of_lt h]

theorem toList_append_inj {a b : Bytes n} {t : List UInt8} :
    a.toList ++ s = b.toList ++ t ↔ a = b ∧ s = t := by
  constructor
  · intro h
    obtain ⟨hblock, hrest⟩ := List.append_inj h (by rw [a.toList_length, b.toList_length])
    exact ⟨List.Vector.toList_injective hblock, hrest⟩
  · rintro ⟨rfl, rfl⟩
    rfl

theorem leBytes_congr {w v' : ℕ} (h : v % 256 ^ w = v' % 256 ^ w) : leBytes w v = leBytes w v' := by
  induction w generalizing v v' with
  | zero => rfl
  | succ w ih =>
    rw [Nat.pow_succ', Nat.mod_mul, Nat.mod_mul] at h
    have hlow : v % 256 = v' % 256 := by omega
    have hhigh : v / 256 % 256 ^ w = v' / 256 % 256 ^ w := by omega
    have hbyte : UInt8.ofNat v = UInt8.ofNat v' := by
      apply UInt8.toNat_inj.mp
      rw [UInt8.toNat_ofNat', UInt8.toNat_ofNat']
      exact hlow
    rw [leBytes, leBytes, hbyte, ih hhigh]

theorem leBytes_append_inj {w v' : ℕ} {t : List UInt8} :
    leBytes w v ++ s = leBytes w v' ++ t ↔ v % 256 ^ w = v' % 256 ^ w ∧ s = t := by
  constructor
  · intro h
    obtain ⟨hblock, hrest⟩ := List.append_inj h (by rw [leBytes_length, leBytes_length])
    refine ⟨?_, hrest⟩
    rw [← leValue_leBytes, ← leValue_leBytes, hblock]
  · rintro ⟨hvalue, rfl⟩
    rw [leBytes_congr hvalue]

end Pricoin.ByteStreams
