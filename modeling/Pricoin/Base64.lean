import Mathlib.Algebra.Group.Nat.Hom
import Mathlib.Data.List.Basic
import Mathlib.Data.Nat.Basic

/-!
Text of sixty-four characters for bytes. Values of one width are converted to another by
shifting them through an accumulator. Three bytes make four characters, and what is left
over at the end is padded. The reader asks for the padding and for zeros in the bits that
it cuts off, so that each list of bytes is read from one text only.
-/
namespace Pricoin.Base64

open List Option

variable {ws : List ℕ}

section Code

variable {α : Type}

/-- What an accumulator of so many bits gives in whole values, from the top. -/
def emit (tobits acc bits : ℕ) : List ℕ :=
  (List.range (bits / tobits)).map fun k => acc / 2 ^ (bits - tobits * (k + 1)) % 2 ^ tobits

/-- `ConvertBits` from a state of the accumulator on. -/
def convertBits (frombits tobits : ℕ) (pad : Bool) (infn : α → Option ℕ) :
    ℕ → ℕ → List α → Option (List ℕ)
  | acc, bits, [] =>
    if pad then some (if bits = 0 then [] else [acc * 2 ^ (tobits - bits) % 2 ^ tobits])
    else if frombits ≤ bits ∨ acc * 2 ^ (tobits - bits) % 2 ^ tobits ≠ 0 then none
    else some []
  | acc, bits, x :: xs => do
    let v ← infn x
    let acc := (acc * 2 ^ frombits + v) % 2 ^ (frombits + tobits - 1)
    let rest ← convertBits frombits tobits pad infn acc ((bits + frombits) % tobits) xs
    some (emit tobits acc (bits + frombits) ++ rest)

/-- The upper case letters, the lower case ones, the digits, plus and slash. -/
def pbase64 : List UInt8 :=
  (List.range 26).map (fun k => .ofNat (65 + k)) ++
    (List.range 26).map (fun k => .ofNat (97 + k)) ++
    (List.range 10).map (fun k => .ofNat (48 + k)) ++ [43, 47]

def encodeChar (v : ℕ) : UInt8 := pbase64.getD v 0

def decode64 (c : UInt8) : Option ℕ :=
  if 65 ≤ c.toNat ∧ c.toNat ≤ 90 then some (c.toNat - 65)
  else if 97 ≤ c.toNat ∧ c.toNat ≤ 122 then some (c.toNat - 97 + 26)
  else if 48 ≤ c.toNat ∧ c.toNat ≤ 57 then some (c.toNat - 48 + 52)
  else if c = 43 then some 62
  else if c = 47 then some 63
  else none

/-- The sign "=". -/
def padChar : UInt8 := 61

def encodeBase64 (input : List UInt8) : List UInt8 :=
  let values := (convertBits 8 6 true (fun b : UInt8 => some b.toNat) 0 0 input).getD []
  let str := values.map encodeChar
  str ++ List.replicate ((4 - str.length % 4) % 4) padChar

def removePad (str : List UInt8) : List UInt8 :=
  if str.getLast? = some padChar then str.dropLast else str

def decodeBase64 (str : List UInt8) : Option (List UInt8) :=
  if str.length % 4 ≠ 0 then none
  else (convertBits 6 8 false decode64 0 0 (removePad (removePad str))).map (·.map UInt8.ofNat)

end Code

section Groups

/-- The values of six bits in a list of bytes, three bytes at a time. -/
def sextets : List UInt8 → List ℕ
  | [] => []
  | [a] => [a.toNat / 4, a.toNat % 4 * 16]
  | [a, b] => [a.toNat / 4, a.toNat % 4 * 16 + b.toNat / 16, b.toNat % 16 * 4]
  | a :: b :: c :: rest =>
    a.toNat / 4 :: (a.toNat % 4 * 16 + b.toNat / 16) :: (b.toNat % 16 * 4 + c.toNat / 64) ::
      c.toNat % 64 :: sextets rest

/-- The bytes in a list of values of six bits, if nothing but zeros is left over. -/
def octets : List ℕ → Option (List ℕ)
  | [] => some []
  | [_] => none
  | [w, x] => if x % 16 = 0 then some [w * 4 + x / 16] else none
  | [w, x, y] => if y % 4 = 0 then some [w * 4 + x / 16, x % 16 * 16 + y / 4] else none
  | w :: x :: y :: z :: rest =>
    (octets rest).map fun os =>
      (w * 4 + x / 16) :: (x % 16 * 16 + y / 4) :: (y % 4 * 64 + z) :: os

/-- What the accumulator holds from before has no effect at the start of a group. -/
theorem convertBits_sextets (acc : ℕ) (bs : List UInt8) :
    convertBits 8 6 true (fun b : UInt8 => some b.toNat) acc 0 bs = some (sextets bs) := by
  induction bs using sextets.induct generalizing acc with
  | case1 => rfl
  | case2 a =>
    have ha := a.toNat_lt
    simp [convertBits, emit, sextets, range_succ]
    omega
  | case3 a b =>
    have ha := a.toNat_lt
    have hb := b.toNat_lt
    simp [convertBits, emit, sextets, range_succ]
    omega
  | case4 a b c rest ih =>
    have ha := a.toNat_lt
    have hb := b.toNat_lt
    have hc := c.toNat_lt
    simp [convertBits, emit, sextets, range_succ, ih]
    omega

/-- The first byte of a group, out of the accumulator. -/
theorem first_octet {w x : ℕ} (acc : ℕ) (hw : w < 64) (hx : x < 64) :
    ((acc * 64 + w) % 8192 * 64 + x) % 8192 / 16 % 256 = w * 4 + x / 16 := by
  omega

theorem second_octet {x y : ℕ} (acc : ℕ) (hy : y < 64) :
    ((acc % 8192 * 64 + x) % 8192 * 64 + y) % 8192 / 4 % 256 = x % 16 * 16 + y / 4 := by
  omega

theorem third_octet {y z : ℕ} (acc : ℕ) (hz : z < 64) :
    ((acc % 8192 * 64 + y) % 8192 * 64 + z) % 256 = y % 4 * 64 + z := by
  omega

theorem convertBits_octets (acc : ℕ) (ws : List ℕ) (hws : ∀ w ∈ ws, w < 64) :
    convertBits 6 8 false some acc 0 ws = octets ws := by
  induction ws using octets.induct generalizing acc with
  | case1 => simp [convertBits, octets]
  | case2 w => simp [convertBits, octets]
  | case3 w x hx =>
    simp only [forall_mem_cons] at hws
    have hleft : ((acc * 64 + w) % 8192 * 64 + x) % 8192 * 16 % 256 = 0 := by omega
    simp [convertBits, emit, octets, range_succ, hx, hleft, first_octet acc hws.1 hws.2.1]
  | case4 w x hx =>
    have hleft : ((acc * 64 + w) % 8192 * 64 + x) % 8192 * 16 % 256 ≠ 0 := by omega
    simp [convertBits, emit, octets, range_succ, hx, hleft]
  | case5 w x y hy =>
    simp only [forall_mem_cons] at hws
    have hleft : (((acc * 64 + w) % 8192 * 64 + x) % 8192 * 64 + y) % 8192 * 64 % 256 = 0 := by
      omega
    simp [convertBits, emit, octets, range_succ, hy, hleft, first_octet acc hws.1 hws.2.1,
      second_octet _ hws.2.2.1]
  | case6 w x y hy =>
    have hleft : (((acc * 64 + w) % 8192 * 64 + x) % 8192 * 64 + y) % 8192 * 64 % 256 ≠ 0 := by
      omega
    simp [convertBits, emit, octets, range_succ, hy, hleft]
  | case7 w x y z rest ih =>
    simp only [forall_mem_cons] at hws
    obtain ⟨hw, hx, hy, hz, hrest⟩ := hws
    simp only [convertBits, emit, octets, ih _ hrest]
    cases octets rest <;>
      simp [range_succ, first_octet acc hw hx, second_octet _ hy, third_octet _ hz]

theorem sextets_lt (bs : List UInt8) : ∀ w ∈ sextets bs, w < 64 := by
  induction bs using sextets.induct with
  | case1 => simp [sextets]
  | case2 a =>
    have ha := a.toNat_lt
    simp only [sextets, forall_mem_cons, not_mem_nil, IsEmpty.forall_iff, implies_true,
      and_true]
    omega
  | case3 a b =>
    have ha := a.toNat_lt
    have hb := b.toNat_lt
    simp only [sextets, forall_mem_cons, not_mem_nil, IsEmpty.forall_iff, implies_true,
      and_true]
    omega
  | case4 a b c rest ih =>
    have ha := a.toNat_lt
    have hb := b.toNat_lt
    have hc := c.toNat_lt
    simp only [sextets, forall_mem_cons]
    exact ⟨by omega, by omega, by omega, by omega, ih⟩

theorem octets_sextets (bs : List UInt8) :
    octets (sextets bs) = some (bs.map UInt8.toNat) := by
  induction bs using sextets.induct with
  | case1 => rfl
  | case2 a =>
    have ha := a.toNat_lt
    rw [sextets, octets, if_pos (by omega)]
    simp only [map_cons, map_nil, some.injEq, cons.injEq, and_true]
    omega
  | case3 a b =>
    have ha := a.toNat_lt
    have hb := b.toNat_lt
    rw [sextets, octets, if_pos (by omega)]
    simp only [map_cons, map_nil, some.injEq, cons.injEq, and_true]
    omega
  | case4 a b c rest ih =>
    have ha := a.toNat_lt
    have hb := b.toNat_lt
    have hc := c.toNat_lt
    rw [sextets, octets, ih]
    simp only [map_some, map_cons, some.injEq, cons.injEq, and_true]
    omega

/-- The values are those of the bytes that they were read as. -/
theorem sextets_of_octets {os : List ℕ} (hws : ∀ w ∈ ws, w < 64) (h : octets ws = some os) :
    sextets (os.map UInt8.ofNat) = ws := by
  induction ws using octets.induct generalizing os with
  | case1 =>
    obtain rfl := some.inj h
    rfl
  | case2 w => cases h
  | case3 w x hx =>
    rw [octets, if_pos hx] at h
    obtain rfl := some.inj h
    simp only [forall_mem_cons] at hws
    simp only [map_cons, map_nil, sextets, UInt8.toNat_ofNat', cons.injEq, and_true]
    omega
  | case4 w x hx =>
    rw [octets, if_neg hx] at h
    cases h
  | case5 w x y hy =>
    rw [octets, if_pos hy] at h
    obtain rfl := some.inj h
    simp only [forall_mem_cons] at hws
    simp only [map_cons, map_nil, sextets, UInt8.toNat_ofNat', cons.injEq, and_true]
    omega
  | case6 w x y hy =>
    rw [octets, if_neg hy] at h
    cases h
  | case7 w x y z rest ih =>
    obtain ⟨os, hos, rfl⟩ := map_eq_some_iff.mp h
    simp only [forall_mem_cons] at hws
    obtain ⟨hw, hx, hy, hz, hrest⟩ := hws
    simp only [map_cons, sextets, UInt8.toNat_ofNat', ih hrest hos, cons.injEq, and_true]
    omega

end Groups

section Characters

theorem decode64_encodeChar : ∀ v < 64, decode64 (encodeChar v) = some v := by decide

theorem encodeChar_ne_padChar : ∀ v < 64, encodeChar v ≠ padChar := by decide

theorem encodeChar_of_decode64 {c : UInt8} {v : ℕ} (h : decode64 c = some v) :
    v < 64 ∧ encodeChar v = c := by
  have hall : ∀ n < 256, ∀ v ∈ decode64 (UInt8.ofNat n), v < 64 ∧ encodeChar v = UInt8.ofNat n := by
    decide +kernel
  have hc := hall c.toNat c.toNat_lt v
  rw [UInt8.ofNat_toNat] at hc
  exact hc h

/-- Values are read from all the characters before they are converted, or on the way. -/
theorem convertBits_mapM {α : Type} (frombits tobits : ℕ) (pad : Bool) (infn : α → Option ℕ)
    (xs : List α) (acc bits : ℕ) :
    convertBits frombits tobits pad infn acc bits xs =
      (xs.mapM infn).bind (convertBits frombits tobits pad some acc bits) := by
  induction xs generalizing acc bits with
  | nil => simp [convertBits]
  | cons x xs ih =>
    rw [convertBits, mapM_cons]
    cases infn x with
    | none => rfl
    | some v =>
      simp only [bind_eq_bind, bind_some, ih, bind_assoc]
      cases xs.mapM infn with
      | none => rfl
      | some vs => simp [convertBits]

theorem mapM_decode64 (hws : ∀ w ∈ ws, w < 64) : (ws.map encodeChar).mapM decode64 = some ws := by
  induction ws with
  | nil => rfl
  | cons w ws ih =>
    obtain ⟨hw, hws⟩ := forall_mem_cons.mp hws
    rw [map_cons, mapM_cons, decode64_encodeChar w hw, ih hws]
    rfl

theorem map_encodeChar_of_mapM {cs : List UInt8} (h : cs.mapM decode64 = some ws) :
    (∀ w ∈ ws, w < 64) ∧ ws.map encodeChar = cs := by
  induction cs generalizing ws with
  | nil =>
    obtain rfl := some.inj h
    simp
  | cons c cs ih =>
    rw [mapM_cons] at h
    obtain ⟨v, hv, h⟩ := bind_eq_some_iff.mp h
    obtain ⟨vs, hvs, h⟩ := bind_eq_some_iff.mp h
    obtain rfl := some.inj h
    obtain ⟨hlt, hc⟩ := encodeChar_of_decode64 hv
    obtain ⟨hall, hcs⟩ := ih hvs
    exact ⟨forall_mem_cons.mpr ⟨hlt, hall⟩, by rw [map_cons, hc, hcs]⟩

end Characters

section Texts

theorem encodeBase64_eq (bs : List UInt8) :
    encodeBase64 bs = (sextets bs).map encodeChar ++
      List.replicate ((4 - (sextets bs).length % 4) % 4) padChar := by
  simp [encodeBase64, convertBits_sextets]

theorem removePad_append_padChar (str : List UInt8) : removePad (str ++ [padChar]) = str := by
  simp [removePad]

theorem removePad_map_encodeChar (hws : ∀ w ∈ ws, w < 64) :
    removePad (ws.map encodeChar) = ws.map encodeChar := by
  refine if_neg fun hlast => ?_
  have hmem := mem_of_getLast? hlast
  obtain ⟨w, hw, heq⟩ := mem_map.mp hmem
  exact encodeChar_ne_padChar w (hws w hw) heq

/-- A group of characters that is not full has two or three of them. -/
theorem length_sextets (bs : List UInt8) :
    (sextets bs).length % 4 = 0 ∨ (sextets bs).length % 4 = 2 ∨ (sextets bs).length % 4 = 3 := by
  induction bs using sextets.induct with
  | case1 => exact .inl rfl
  | case2 a => exact .inr (.inl rfl)
  | case3 a b => exact .inr (.inr rfl)
  | case4 a b c rest ih =>
    simp only [sextets, length_cons]
    omega

theorem removePad_encode (hws : ∀ w ∈ ws, w < 64) {k : ℕ} (hk : k ≤ 2) :
    removePad (removePad (ws.map encodeChar ++ List.replicate k padChar)) = ws.map encodeChar := by
  match k, hk with
  | 0, _ => simp [removePad_map_encodeChar hws]
  | 1, _ => rw [replicate_one, removePad_append_padChar, removePad_map_encodeChar hws]
  | 2, _ =>
    rw [replicate_succ', ← append_assoc, removePad_append_padChar, replicate_one,
      removePad_append_padChar]

theorem decodeBase64_encodeBase64 (bs : List UInt8) : decodeBase64 (encodeBase64 bs) = some bs := by
  have hmod := length_sextets bs
  have hlength : (encodeBase64 bs).length % 4 = 0 := by
    rw [encodeBase64_eq, length_append, length_map, length_replicate]
    omega
  rw [decodeBase64, if_neg (not_not.mpr hlength), encodeBase64_eq,
    removePad_encode (sextets_lt bs) (by omega), convertBits_mapM, mapM_decode64 (sextets_lt bs),
    bind_some, convertBits_octets 0 _ (sextets_lt bs), octets_sextets, map_some,
    List.map_map]
  simp [Function.comp_def]

theorem exists_of_removePad (str : List UInt8) :
    ∃ k ≤ 1, str = removePad str ++ List.replicate k padChar := by
  unfold removePad
  split
  · rename_i hlast
    refine ⟨1, le_refl 1, ?_⟩
    rw [replicate_one]
    exact (dropLast_append_getLast? padChar hlast).symm
  · exact ⟨0, Nat.zero_le 1, by simp⟩

/-- Each text that is accepted is the one of its bytes. -/
theorem encodeBase64_of_decodeBase64 {str bs : List UInt8} (h : decodeBase64 str = some bs) :
    encodeBase64 bs = str := by
  unfold decodeBase64 at h
  split at h
  · cases h
  rename_i hlength
  obtain ⟨os, hos, rfl⟩ := map_eq_some_iff.mp h
  rw [convertBits_mapM] at hos
  obtain ⟨ws, hws, hos⟩ := bind_eq_some_iff.mp hos
  obtain ⟨hlt, hbody⟩ := map_encodeChar_of_mapM hws
  rw [convertBits_octets 0 ws hlt] at hos
  obtain ⟨k, hk, hstr⟩ := exists_of_removePad str
  obtain ⟨j, hj, hstr'⟩ := exists_of_removePad (removePad str)
  have hpadded : str = ws.map encodeChar ++ List.replicate (j + k) padChar := by
    rw [replicate_add, ← append_assoc, hbody, ← hstr', ← hstr]
  have hcount : (4 - ws.length % 4) % 4 = j + k := by
    have hsize := congrArg List.length hpadded
    rw [length_append, length_map, length_replicate] at hsize
    omega
  rw [encodeBase64_eq, sextets_of_octets hlt hos, hcount, hpadded]

end Texts

end Pricoin.Base64
