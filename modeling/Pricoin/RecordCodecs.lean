import Pricoin.Codecs

/-!
Codecs of stored records. A reader refuses a vector of more than the largest size,
so a record comes back when its whole image is no longer than that. The property
passes from the fields to the record.
-/
namespace Pricoin.RecordCodecs

open ByteStreams Codecs Codec

variable {α β : Type}
variable {c : Codec α}

/-- Values with an image of at most the largest size come back. -/
def Fits (c : Codec α) : Prop := ∀ a, (c.write a).length ≤ maxSize → c.Lossless a

theorem Fits.pair {d : Codec β} (hc : Fits c) (hd : Fits d) : Fits (c.pair d) := by
  intro p hp
  have hlen : (c.write p.1).length + (d.write p.2).length ≤ maxSize := by
    rwa [← List.length_append]
  exact Lossless.pair (hc p.1 (by omega)) (hd p.2 (by omega))

theorem Fits.via (hc : Fits c) {f : β → α} {g : α → β} (hinv : ∀ b, g (f b) = b) :
    Fits (c.via f g) :=
  fun b hb => Lossless.via (hc (f b) hb) (hinv b)

theorem fits_block (n : ℕ) : Fits (block n) := fun b _ => lossless_block b

theorem fits_byte : Fits byte := fun b _ => lossless_byte b

theorem fits_vector (hc : Fits c) (hpos : ∀ a, 0 < (c.write a).length) :
    Fits (vector maxSize c) := by
  intro as has
  have hbody : (as.flatMap c.write).length ≤ maxSize := by
    have happend : (writeCompactSize as.length ++ as.flatMap c.write).length ≤ maxSize := has
    rw [List.length_append] at happend
    omega
  have hcount : as.length ≤ maxSize := (length_le_flatMap c fun a _ => hpos a).trans hbody
  refine lossless_vector hcount (lt_of_le_of_lt hcount (by decide)) fun a ha => hc a ?_
  exact (length_write_le_flatMap c ha).trans hbody

/-- A string or a vector of bytes. -/
def bytes : Codec (List UInt8) := byteVector maxSize

theorem fits_bytes : Fits bytes := fits_vector fits_byte fun _ => Nat.one_pos

/-- A flag in a byte. -/
def bool : Codec Bool := byte.via (fun b => if b then 1 else 0) (fun b => b != 0)

theorem fits_bool : Fits bool := fits_byte.via (by decide)

def sint64 : Codec Int64 := int64.via Int64.toInt Int64.ofInt

theorem fits_sint64 : Fits sint64 := by
  intro n _
  exact Lossless.via (lossless_int64 n.le_toInt n.toInt_lt) n.ofInt_toInt

def sint32 : Codec Int32 :=
  (uint 4).via (fun n => (n.toInt % 2 ^ 32).toNat) (fun n => Int32.ofInt (Int.ofNat n))

theorem fits_sint32 : Fits sint32 := by
  intro n _
  have hrange : (n.toInt % 2 ^ 32).toNat < 256 ^ 4 := by omega
  refine Lossless.via (lossless_uint hrange) ?_
  have hback : Int.ofNat (n.toInt % 2 ^ 32).toNat = n.toInt % 2 ^ 32 :=
    Int.toNat_of_nonneg (by omega)
  have hmod : (n.toInt % 2 ^ 32).bmod Int32.size = n.toInt.bmod Int32.size :=
    Int.emod_bmod n.toInt (n := Int32.size)
  rw [hback]
  refine Int32.toInt_inj.mp ?_
  rw [Int32.toInt_ofInt, hmod, ← Int32.toInt_ofInt, Int32.ofInt_toInt]

end Pricoin.RecordCodecs
