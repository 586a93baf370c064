import Mathlib.Data.List.Forall2
import Pricoin.ByteStreams

/-!
Codecs on byte streams. A codec loses nothing at a value when reading behind any
rest gives the value and the rest back. Pairs, images under a change of type and
counted lists keep that property value by value, so that a composed format is
lossless wherever its parts are. The counts are in the compact size format, the
variable {largest : ℕ}

variable-length integers in the format with an offset in every digit but the last.
-/
namespace Pricoin.Codecs

open ByteStreams List Option

structure Codec (α : Type) where
  write : α → List UInt8
  read : List UInt8 → Option (α × List UInt8)

namespace Codec

variable {α β : Type}
variable {c : Codec α} {a a' : α} {b : β}

/-- What was written as one value is read as another, and the stream behind it is untouched. -/
def Reads (c : Codec α) (a b : α) : Prop := ∀ rest, c.read (c.write a ++ rest) = some (b, rest)

/-- The value comes back. -/
def Lossless (c : Codec α) (a : α) : Prop := c.Reads a a

/-- Where two streams agree, what is read from them agrees, and so do the rests. -/
theorem Reads.eq_of_append_eq {b b' : α} (ha : c.Reads a a') (hb : c.Reads b b') {r r' : List UInt8}
    (h : c.write a ++ r = c.write b ++ r') : a' = b' ∧ r = r' := by
  have hread := ha r
  rw [h, hb r'] at hread
  simp only [some.injEq, Prod.mk.injEq] at hread
  exact ⟨hread.1.symm, hread.2.symm⟩

theorem Reads.eq_of_write_eq {b b' : α} (ha : c.Reads a a') (hb : c.Reads b b')
    (h : c.write a = c.write b) : a' = b' := by
  have happend : c.write a ++ [] = c.write b ++ [] := by rw [h]
  exact (ha.eq_of_append_eq hb happend).1

def pair (c : Codec α) (d : Codec β) : Codec (α × β) where
  write p := c.write p.1 ++ d.write p.2
  read s := do
    let (a, s) ← c.read s
    let (b, s) ← d.read s
    some ((a, b), s)

theorem Reads.pair {d : Codec β} {b' : β} (ha : c.Reads a a') (hb : d.Reads b b') :
    (c.pair d).Reads (a, b) (a', b') := by
  intro rest
  simp only [Codec.pair, append_assoc]
  rw [ha, bind_eq_bind, bind_some]
  simp only [hb rest, bind_eq_bind, bind_some]

theorem Lossless.pair {d : Codec β} (ha : c.Lossless a) (hb : d.Lossless b) :
    (c.pair d).Lossless (a, b) := Reads.pair ha hb

/-- The codec of a type whose values are written as values of another. -/
def via (c : Codec α) (f : β → α) (g : α → β) : Codec β where
  write b := c.write (f b)
  read s := (c.read s).map (fun p => (g p.1, p.2))

theorem Reads.via {f : β → α} {g : α → β} (hb : c.Reads (f b) a) : (c.via f g).Reads b (g a) := by
  intro rest
  simp [Codec.via, hb rest]

theorem Lossless.via {f : β → α} {g : α → β} (hb : c.Lossless (f b)) (hinv : g (f b) = b) :
    (c.via f g).Lossless b := by
  have hreads : (c.via f g).Reads b (g (f b)) := Reads.via hb
  rwa [hinv] at hreads

def block (n : ℕ) : Codec (Bytes n) where
  write b := b.toList
  read := readBytes n

theorem lossless_block {n : ℕ} (b : Bytes n) : (block n).Lossless b := readBytes_append b

/-- A little-endian integer of `w` bytes. -/
def uint (w : ℕ) : Codec ℕ where
  write n := (leBlock w n).toList
  read s := (readBytes w s).map (fun p => (leValue p.1.toList, p.2))

theorem lossless_uint {w n : ℕ} (h : n < 256 ^ w) : (uint w).Lossless n := by
  intro rest
  simp [uint, readBytes_append, leValue_leBlock h]

/-- The unsigned reading of a signed 64-bit integer. -/
def toUint64 (value : ℤ) : ℕ := (value % 2 ^ 64).toNat

def toInt64 (n : ℕ) : ℤ := if n < 2 ^ 63 then n else (n : ℤ) - 2 ^ 64

theorem toUint64_lt (value : ℤ) : toUint64 value < 2 ^ 64 := by
  unfold toUint64
  omega

theorem toInt64_toUint64 {value : ℤ} (hlow : -2 ^ 63 ≤ value) (hhigh : value < 2 ^ 63) :
    toInt64 (toUint64 value) = value := by
  unfold toInt64 toUint64
  split <;> omega

/-- A signed little-endian integer of eight bytes. -/
def int64 : Codec ℤ := (uint 8).via toUint64 toInt64

theorem lossless_int64 {value : ℤ} (hlow : -2 ^ 63 ≤ value) (hhigh : value < 2 ^ 63) :
    int64.Lossless value :=
  Lossless.via (lossless_uint (toUint64_lt value)) (toInt64_toUint64 hlow hhigh)

end Codec

/-- The largest count that a reader of a vector takes. -/
def maxSize : ℕ := 0x02000000

def writeCompactSize (n : ℕ) : List UInt8 :=
  if n < 253 then [UInt8.ofNat n]
  else if n ≤ 0xFFFF then 253 :: leBytes 2 n
  else if n ≤ 0xFFFFFFFF then 254 :: leBytes 4 n
  else 255 :: leBytes 8 n

/-- A count behind its marker byte, refused when a shorter form would have held it. -/
def readCanonical (w least : ℕ) (s : List UInt8) : Option (ℕ × List UInt8) := do
  let (n, s) ← (Codec.uint w).read s
  if n < least then none else some (n, s)

/-- Read a count of at most `limit`. -/
def readCompactSize (limit : ℕ) : List UInt8 → Option (ℕ × List UInt8)
  | [] => none
  | ch :: s => do
    let (n, s) ←
      if ch < 253 then some (ch.toNat, s)
      else if ch = 253 then readCanonical 2 253 s
      else if ch = 254 then readCanonical 4 0x10000 s
      else readCanonical 8 0x100000000 s
    if limit < n then none else some (n, s)

private theorem readCanonical_leBytes {w least n : ℕ} (hlow : least ≤ n) (hhigh : n < 256 ^ w)
    (rest : List UInt8) : readCanonical w least (leBytes w n ++ rest) = some (n, rest) := by
  have hread : (Codec.uint w).read (leBytes w n ++ rest) = some (n, rest) :=
    Codec.lossless_uint hhigh rest
  simp [readCanonical, hread, Nat.not_lt.mpr hlow]

def compactSize (limit : ℕ) : Codec ℕ := ⟨writeCompactSize, readCompactSize limit⟩

theorem lossless_compactSize {limit n : ℕ} (hlimit : n ≤ limit) (h64 : n < 2 ^ 64) :
    (compactSize limit).Lossless n := by
  intro rest
  have hle : ¬ limit < n := Nat.not_lt.mpr hlimit
  change readCompactSize limit (writeCompactSize n ++ rest) = some (n, rest)
  unfold writeCompactSize
  split
  · rename_i hsmall
    have hval : (UInt8.ofNat n).toNat = n := by
      rw [UInt8.toNat_ofNat']
      omega
    have hch : UInt8.ofNat n < 253 := by
      rw [UInt8.lt_iff_toNat_lt, hval]
      exact hsmall
    simp [readCompactSize, hch, hval, hle]
  · split
    · have hread := @readCanonical_leBytes 2 253 n (by omega) (by omega) rest
      simp [readCompactSize, hread, hle]
    · split
      · have hread := @readCanonical_leBytes 4 0x10000 n (by omega) (by omega) rest
        simp [readCompactSize, hread, hle]
      · have hread := @readCanonical_leBytes 8 0x100000000 n (by omega) (by omega) rest
        simp [readCompactSize, hread, hle]

namespace Codec

variable {α : Type}

/-- Read `n` values one after the other. -/
def readMany (c : Codec α) : ℕ → List UInt8 → Option (List α × List UInt8)
  | 0, s => some ([], s)
  | n + 1, s => do
    let (a, s) ← c.read s
    let (as, s) ← readMany c n s
    some (a :: as, s)

theorem readMany_append (c : Codec α) {as bs : List α} (h : List.Forall₂ c.Reads as bs)
    (rest : List UInt8) :
    c.readMany as.length (as.flatMap c.write ++ rest) = some (bs, rest) := by
  induction h with
  | nil => rfl
  | cons hab _ ih =>
    rw [length_cons, readMany, flatMap_cons, append_assoc, hab]
    simp [ih]

/-- A counted list. -/
def vector (limit : ℕ) (c : Codec α) : Codec (List α) where
  write as := writeCompactSize as.length ++ as.flatMap c.write
  read s := do
    let (n, s) ← readCompactSize limit s
    c.readMany n s

theorem reads_vector {limit : ℕ} {c : Codec α} {as bs : List α} (hlimit : as.length ≤ limit)
    (h64 : as.length < 2 ^ 64) (h : List.Forall₂ c.Reads as bs) : (vector limit c).Reads as bs := by
  intro rest
  have hcount := lossless_compactSize hlimit h64 (as.flatMap c.write ++ rest)
  change readCompactSize limit (writeCompactSize as.length ++ (as.flatMap c.write ++ rest)) = _
    at hcount
  simp only [vector, append_assoc, hcount, bind_eq_bind, bind_some]
  exact c.readMany_append h rest

theorem lossless_vector {limit : ℕ} {c : Codec α} {as : List α} (hlimit : as.length ≤ limit)
    (h64 : as.length < 2 ^ 64) (h : ∀ a ∈ as, c.Lossless a) : (vector limit c).Lossless as :=
  reads_vector hlimit h64 (forall₂_same.mpr h)

theorem length_write_le_flatMap (c : Codec α) {as : List α} {a : α} (ha : a ∈ as) :
    (c.write a).length ≤ (as.flatMap c.write).length :=
  (sublist_flatten_of_mem (mem_map_of_mem ha)).length_le

theorem length_le_flatMap (c : Codec α) {as : List α} (h : ∀ a ∈ as, 0 < (c.write a).length) :
    as.length ≤ (as.flatMap c.write).length := by
  induction as with
  | nil => exact Nat.le_refl _
  | cons a as ih =>
    have hpos := h a mem_cons_self
    have htail := ih fun a' ha' => h a' (mem_cons_of_mem _ ha')
    rw [flatMap_cons, length_append, length_cons]
    omega

/-- A single byte. -/
def byte : Codec UInt8 where
  write b := [b]
  read
    | [] => none
    | b :: s => some (b, s)

theorem lossless_byte (b : UInt8) : byte.Lossless b := fun _ => rfl

/-- A counted byte string. -/
def byteVector (limit : ℕ) : Codec (List UInt8) := vector limit byte

theorem lossless_byteVector {limit : ℕ} {bs : List UInt8} (hlimit : bs.length ≤ limit)
    (h64 : bs.length < 2 ^ 64) : (byteVector limit).Lossless bs :=
  lossless_vector hlimit h64 (fun b _ => lossless_byte b)

end Codec

/-- The digits in front of the last one, each with the high bit set. The buffer has one place
for each turn of the loop. -/
def varIntDigits : ℕ → ℕ → List UInt8
  | 0, _ => []
  | places + 1, n =>
    (if n ≤ 0x7F then [] else varIntDigits places (n / 128 - 1)) ++ [UInt8.ofNat (n % 128 + 128)]

/-- Write an integer of a type that needs at most `places` digits. -/
def writeVarInt (places n : ℕ) : List UInt8 :=
  (if n ≤ 0x7F then [] else varIntDigits (places - 1) (n / 128 - 1)) ++ [UInt8.ofNat (n % 128)]

/-- Read an integer of a type with the given largest value, with what has been read so far. -/
def readVarIntFrom (largest : ℕ) : ℕ → List UInt8 → Option (ℕ × List UInt8)
  | _, [] => none
  | n, ch :: s =>
    if largest / 128 < n then none
    else
      let n := n * 128 + ch.toNat % 128
      if ch < 128 then some (n, s)
      else if n = largest then none
      else readVarIntFrom largest (n + 1) s

/-- Variable-length integers of a type with `places` digits. -/
def varInt (places largest : ℕ) : Codec ℕ :=
  ⟨writeVarInt places, readVarIntFrom largest 0⟩

/-- One flagged digit behind the digits of the quotient. -/
private theorem readVarIntFrom_digit {n : ℕ} (hlt : n < largest) (rest : List UInt8) :
    readVarIntFrom largest (n / 128) (UInt8.ofNat (n % 128 + 128) :: rest) =
      readVarIntFrom largest (n + 1) rest := by
  have hdigit : (UInt8.ofNat (n % 128 + 128)).toNat = n % 128 + 128 := by
    rw [UInt8.toNat_ofNat']
    omega
  have hflag : ¬ UInt8.ofNat (n % 128 + 128) < 128 := by
    rw [UInt8.lt_iff_toNat_lt, hdigit]
    exact Nat.not_lt.mpr (Nat.le_add_left _ _)
  have hguard : ¬ largest / 128 < n / 128 := by omega
  have hvalue : n / 128 * 128 + (n % 128 + 128) % 128 = n := by omega
  simp only [readVarIntFrom, if_neg hguard, hdigit, hvalue, if_neg hflag,
    if_neg (Nat.ne_of_lt hlt)]

private theorem readVarIntFrom_digits {places n : ℕ} (hlt : n < largest)
    (hplaces : n < 128 ^ (places + 1)) (rest : List UInt8) :
    readVarIntFrom largest 0 (varIntDigits (places + 1) n ++ rest) =
      readVarIntFrom largest (n + 1) rest := by
  induction places generalizing n rest with
  | zero =>
    have hzero : n / 128 = 0 := by omega
    rw [varIntDigits, if_pos (by omega), nil_append, singleton_append,
      ← readVarIntFrom_digit hlt, hzero]
  | succ places ih =>
    rw [varIntDigits]
    by_cases hsmall : n ≤ 0x7F
    · have hzero : n / 128 = 0 := by omega
      rw [if_pos hsmall, nil_append, singleton_append, ← readVarIntFrom_digit hlt, hzero]
    · have hquot : n / 128 - 1 < 128 ^ (places + 1) := by
        rw [Nat.pow_succ] at hplaces
        omega
      have hback : n / 128 - 1 + 1 = n / 128 := by omega
      rw [if_neg hsmall, append_assoc, ih (by omega) hquot, hback, singleton_append,
        readVarIntFrom_digit hlt]

theorem lossless_varInt {places n : ℕ} (hle : n ≤ largest) (hplaces : n < 128 ^ (places + 1)) :
    (varInt (places + 1) largest).Lossless n := by
  intro rest
  change readVarIntFrom largest 0 (writeVarInt (places + 1) n ++ rest) = some (n, rest)
  have hdigit : (UInt8.ofNat (n % 128)).toNat = n % 128 := by
    rw [UInt8.toNat_ofNat']
    omega
  have hflag : UInt8.ofNat (n % 128) < 128 := by
    rw [UInt8.lt_iff_toNat_lt, hdigit]
    exact Nat.mod_lt n (by decide)
  have hlast : readVarIntFrom largest (n / 128) (UInt8.ofNat (n % 128) :: rest) =
      some (n, rest) := by
    have hguard : ¬ largest / 128 < n / 128 := by omega
    have hvalue : n / 128 * 128 + n % 128 % 128 = n := by omega
    simp only [readVarIntFrom, if_neg hguard, hdigit, hvalue, if_pos hflag]
  unfold writeVarInt
  by_cases hsmall : n ≤ 0x7F
  · have hzero : n / 128 = 0 := by omega
    rw [if_pos hsmall, nil_append, singleton_append, ← hzero, hlast]
  · cases places with
    | zero => omega
    | succ places =>
      have hquot : n / 128 - 1 < 128 ^ (places + 1) := by
        rw [Nat.pow_succ] at hplaces
        omega
      have hback : n / 128 - 1 + 1 = n / 128 := by omega
      rw [if_neg hsmall, append_assoc, Nat.add_sub_cancel,
        readVarIntFrom_digits (by omega) hquot, hback, singleton_append, hlast]

/-- The variable-length form of a 32-bit integer. -/
def varInt32 : Codec ℕ := varInt 5 0xFFFFFFFF

/-- The variable-length form of a 64-bit integer. -/
def varInt64 : Codec ℕ := varInt 10 0xFFFFFFFFFFFFFFFF

theorem lossless_varInt32 {n : ℕ} (h : n < 2 ^ 32) : varInt32.Lossless n :=
  lossless_varInt (by omega) (Nat.lt_of_lt_of_le h (by decide))

theorem lossless_varInt64 {n : ℕ} (h : n < 2 ^ 64) : varInt64.Lossless n :=
  lossless_varInt (by omega) (Nat.lt_of_lt_of_le h (by decide))

example : varInt32.write 65535 = [0x82, 0xFE, 0x7F] := by decide

end Pricoin.Codecs
