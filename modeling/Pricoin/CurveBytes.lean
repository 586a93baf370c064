import Mathlib.Algebra.Module.Torsion.Field
import Mathlib.Algebra.BigOperators.Group.List.Basic
import Pricoin.Transactions

/-!
The curve library that ring signatures are made with: a group with a generator, the
scalars of a field, and both written as bytes. Keys and tweaks are refused when they
are zero or too large, and points when they are at infinity. Each function is
characterised by what its arguments and its result are read as. Hashing is left open,
and hashes become scalars and points by trying again.
-/
namespace Pricoin.CurveBytes

open ByteStreams KeyImageFile Transactions Option

variable {b u tweak s : Scalar} {out : Point} {seed : List UInt8}

/-- Points other than the one at infinity and scalars have one encoding each. -/
structure Secp256k1 (F E : Type) [Field F] [AddCommGroup E] [Module F E] where
  G : E
  parsePoint : Point → Option E
  serializePoint : E → Point
  /-- The value of 32 bytes when it is below the order. -/
  parseScalar : Scalar → Option F
  serializeScalar : F → Scalar
  sha256 : List UInt8 → Uint256
  generator_ne_zero : G ≠ 0
  generates : ∀ p, ∃ a : F, p = a • G
  parse_serialize : ∀ p, p ≠ 0 → parsePoint (serializePoint p) = some p
  ne_zero_of_parse : ∀ b p, parsePoint b = some p → p ≠ 0
  serialize_of_parse : ∀ b p, parsePoint b = some p → serializePoint p = b
  parse_serializeScalar : ∀ a, parseScalar (serializeScalar a) = some a
  serializeScalar_of_parse : ∀ b a, parseScalar b = some a → serializeScalar a = b

namespace Secp256k1

variable {F E : Type} [Field F] [AddCommGroup E] [Module F E]

section Encodings

variable {curve : Secp256k1 F E}

theorem serializePoint_eq_iff {p : E} {b : Point} (hp : p ≠ 0) :
    curve.serializePoint p = b ↔ curve.parsePoint b = some p := by
  constructor
  · rintro rfl
    exact curve.parse_serialize p hp
  · exact curve.serialize_of_parse b p

theorem serializeScalar_eq_iff {a : F} :
    curve.serializeScalar a = b ↔ curve.parseScalar b = some a := by
  constructor
  · rintro rfl
    exact curve.parse_serializeScalar a
  · exact curve.serializeScalar_of_parse b a

theorem eq_of_parse {b b' : Point} {p : E} (h : curve.parsePoint b = some p)
    (h' : curve.parsePoint b' = some p) : b = b' :=
  (curve.serialize_of_parse b p h).symm.trans (curve.serialize_of_parse b' p h')

theorem smul_generator_inj {a b : F} : a • curve.G = b • curve.G ↔ a = b :=
  (smul_left_injective F curve.generator_ne_zero).eq_iff

end Encodings

variable [DecidableEq F] [DecidableEq E] (curve : Secp256k1 F E)

section Library

/-- `secp256k1_scalar_set_b32_seckey`: neither zero nor too large. -/
def seckey (b : Scalar) : Option F := (curve.parseScalar b).filter (· ≠ 0)

/-- The number that 32 bytes stand for, where they stand for one. -/
def value (b : Scalar) : F := (curve.parseScalar b).getD 0

def seckeyVerify (b : Scalar) : Bool := (curve.seckey b).isSome

/-- A secret key as the loops over random bytes leave it. -/
abbrev Seckey := { b : Scalar // curve.seckeyVerify b = true }

def pubkeyCreate (b : Scalar) : Option E := (curve.seckey b).map (· • curve.G)

/-- A tweak is refused like a key. -/
def pubkeyTweakMul (p : E) (tweak : Scalar) : Option E := (curve.seckey tweak).map (· • p)

def pubkeyCombine (_ : Secp256k1 F E) (ps : List E) : Option E :=
  if ps.sum = 0 then none else some ps.sum

def seckeyNegate (b : Scalar) : Option Scalar :=
  (curve.seckey b).map fun a => curve.serializeScalar (-a)

/-- A zero tweak is no failure, a zero sum is one. -/
def seckeyTweakAdd (b tweak : Scalar) : Option Scalar := do
  let a ← curve.seckey b
  let t ← curve.parseScalar tweak
  if a + t = 0 then none else some (curve.serializeScalar (a + t))

def seckeyTweakMul (b tweak : Scalar) : Option Scalar := do
  let a ← curve.seckey b
  let t ← curve.seckey tweak
  some (curve.serializeScalar (a * t))

def addPoints (a b : Point) : Option Point := do
  let pa ← curve.parsePoint a
  let pb ← curve.parsePoint b
  let sum ← curve.pubkeyCombine [pa, pb]
  some (curve.serializePoint sum)

def scalarMultPoint (scalar : Scalar) (base : Point) : Option Point := do
  let p ← curve.parsePoint base
  let q ← curve.pubkeyTweakMul p scalar
  some (curve.serializePoint q)

def scalarMultG (scalar : Scalar) : Option Point := do
  let p ← curve.pubkeyCreate scalar
  some (curve.serializePoint p)

end Library

section Hashing

/-- A hash that is a valid key, of the chunks behind a tag or, if that is none, behind another tag
and before a counter. -/
def hashToScalarTagged (tag rehashTag : List UInt8) (chunks : List (List UInt8)) :
    Option Scalar :=
  ((tag ++ chunks.flatten) :: (List.range 256).map fun counter =>
    rehashTag ++ chunks.flatten ++ [UInt8.ofNat counter]).map curve.sha256
    |>.find? curve.seckeyVerify

def hashToPointTag : List UInt8 := ascii "pricoin/ringsig/H_p"

/-- The two points whose first coordinate is the hash. -/
def tryCounter (seed : List UInt8) (counter : ℕ) : Option Point :=
  let buf := curve.sha256 (hashToPointTag ++ seed ++ leBytes 4 counter)
  [2, 3].findSome? fun parity =>
    (curve.parsePoint (List.Vector.cons parity buf)).map curve.serializePoint

def hashToPointFrom (seed : List UInt8) : ℕ → ℕ → Option Point
  | 0, _ => none
  | tries + 1, counter => (curve.tryCounter seed counter).or
      (hashToPointFrom seed tries (counter + 1))

/-- Counters of 32 bits are tried until one gives a point. -/
def hashToPoint (seed : List UInt8) : Option Point := curve.hashToPointFrom seed (2 ^ 32) 0

end Hashing

section Keys

variable {curve}
variable {a : F}

omit [DecidableEq E]

theorem seckey_eq_some : curve.seckey b = some a ↔ curve.parseScalar b = some a ∧ a ≠ 0 := by
  simp [seckey, filter_eq_some_iff]

theorem seckey_ne_zero (h : curve.seckey b = some a) : a ≠ 0 :=
  (seckey_eq_some.mp h).2

theorem seckey_inj {a : Scalar} {x : F} (ha : curve.seckey a = some x)
    (hb : curve.seckey b = some x) : a = b :=
  (curve.serializeScalar_of_parse a x (seckey_eq_some.mp ha).1).symm.trans
    (curve.serializeScalar_of_parse b x (seckey_eq_some.mp hb).1)

theorem seckey_serializeScalar (ha : a ≠ 0) : curve.seckey (curve.serializeScalar a) = some a :=
  seckey_eq_some.mpr ⟨curve.parse_serializeScalar a, ha⟩

theorem seckeyVerify_iff : curve.seckeyVerify b = true ↔ ∃ a, curve.seckey b = some a := by
  rw [seckeyVerify, isSome_iff_exists]

theorem seckeyVerify_eq_false : curve.seckeyVerify b = false ↔ curve.seckey b = none := by
  rw [seckeyVerify, isSome_eq_false_iff, isNone_iff_eq_none]

theorem seckey_of_not_false (h : ¬ curve.seckeyVerify b = false) : ∃ a, curve.seckey b = some a :=
  seckeyVerify_iff.mp (Bool.not_eq_false _ ▸ h)

theorem seckeyNegate_eq_some :
    curve.seckeyNegate b = some u ↔ ∃ a, curve.seckey b = some a ∧ curve.seckey u = some (-a) := by
  simp only [seckeyNegate, map_eq_some_iff, serializeScalar_eq_iff]
  refine exists_congr fun a => and_congr_right fun ha => ?_
  rw [seckey_eq_some, and_iff_left (neg_ne_zero.mpr (seckey_ne_zero ha))]

theorem seckeyTweakAdd_eq_some :
    curve.seckeyTweakAdd b tweak = some u ↔ ∃ a t, curve.seckey b = some a ∧
      curve.parseScalar tweak = some t ∧ curve.seckey u = some (a + t) := by
  simp only [seckeyTweakAdd, bind_eq_bind, bind_eq_some_iff, seckey_eq_some]
  constructor
  · rintro ⟨a, ha, t, ht, h⟩
    split at h
    · contradiction
    · rename_i hne
      exact ⟨a, t, ha, ht, serializeScalar_eq_iff.mp (some.inj h), hne⟩
  · rintro ⟨a, t, ha, ht, hu, hne⟩
    refine ⟨a, ha, t, ht, ?_⟩
    rw [if_neg hne, serializeScalar_eq_iff.mpr hu]

theorem seckeyTweakMul_eq_some :
    curve.seckeyTweakMul b tweak = some u ↔ ∃ a t, curve.seckey b = some a ∧
      curve.seckey tweak = some t ∧ curve.seckey u = some (a * t) := by
  simp only [seckeyTweakMul, bind_eq_bind, bind_eq_some_iff, some.injEq,
    serializeScalar_eq_iff]
  constructor
  · rintro ⟨a, ha, t, ht, hu⟩
    exact ⟨a, t, ha, ht, seckey_eq_some.mpr
      ⟨hu, mul_ne_zero (seckey_ne_zero ha) (seckey_ne_zero ht)⟩⟩
  · rintro ⟨a, t, ha, ht, hu⟩
    exact ⟨a, ha, t, ht, (seckey_eq_some.mp hu).1⟩

theorem scalarMultPoint_eq_some {base : Point} :
    curve.scalarMultPoint s base = some out ↔ ∃ a p, curve.seckey s = some a ∧
      curve.parsePoint base = some p ∧ curve.parsePoint out = some (a • p) := by
  simp only [scalarMultPoint, pubkeyTweakMul, bind_eq_bind, bind_eq_some_iff,
    map_eq_some_iff, some.injEq]
  constructor
  · rintro ⟨p, hp, _, ⟨a, ha, rfl⟩, h⟩
    have hne := smul_ne_zero (seckey_ne_zero ha) (curve.ne_zero_of_parse _ _ hp)
    exact ⟨a, p, ha, hp, (serializePoint_eq_iff hne).mp h⟩
  · rintro ⟨a, p, ha, hp, h⟩
    exact ⟨p, hp, a • p, ⟨a, ha, rfl⟩, curve.serialize_of_parse _ _ h⟩

theorem scalarMultG_eq_some :
    curve.scalarMultG s = some out ↔ ∃ a, curve.seckey s = some a ∧
      curve.parsePoint out = some (a • curve.G) := by
  simp only [scalarMultG, pubkeyCreate, bind_eq_bind, bind_eq_some_iff,
    map_eq_some_iff, some.injEq]
  constructor
  · rintro ⟨_, ⟨a, ha, rfl⟩, h⟩
    have hne := smul_ne_zero (seckey_ne_zero ha) curve.generator_ne_zero
    exact ⟨a, ha, (serializePoint_eq_iff hne).mp h⟩
  · rintro ⟨a, ha, h⟩
    exact ⟨a • curve.G, ⟨a, ha, rfl⟩, curve.serialize_of_parse _ _ h⟩

theorem scalarMultPoint_iff {base : Point} {p : E} (hs : curve.seckey s = some a)
    (hbase : curve.parsePoint base = some p) :
    curve.scalarMultPoint s base = some out ↔ curve.parsePoint out = some (a • p) := by
  simp [scalarMultPoint_eq_some, hs, hbase]

theorem scalarMultG_iff (hs : curve.seckey s = some a) :
    curve.scalarMultG s = some out ↔ curve.parsePoint out = some (a • curve.G) := by
  simp [scalarMultG_eq_some, hs]

theorem scalarMultG_inj {s' : Scalar} (h : curve.scalarMultG s = some out)
    (h' : curve.scalarMultG s' = some out) : s = s' := by
  obtain ⟨a, ha, hout⟩ := scalarMultG_eq_some.mp h
  obtain ⟨a', ha', hout'⟩ := scalarMultG_eq_some.mp h'
  have heq := some.inj (hout.symm.trans hout')
  obtain rfl := smul_generator_inj.mp heq
  exact seckey_inj ha ha'

theorem seckeyTweakAdd_iff {t : F} (hb : curve.seckey b = some a)
    (ht : curve.parseScalar tweak = some t) :
    curve.seckeyTweakAdd b tweak = some u ↔ curve.seckey u = some (a + t) := by
  simp [seckeyTweakAdd_eq_some, hb, ht]

theorem seckeyTweakAdd_eq_none {t : F} (hb : curve.seckey b = some a)
    (ht : curve.parseScalar tweak = some t) (hzero : a + t = 0) :
    curve.seckeyTweakAdd b tweak = none := by
  refine eq_none_iff_forall_ne_some.mpr fun u hu => ?_
  exact seckey_ne_zero ((seckeyTweakAdd_iff hb ht).mp hu) hzero

theorem seckeyTweakMul_iff {t : F} (hb : curve.seckey b = some a)
    (ht : curve.seckey tweak = some t) :
    curve.seckeyTweakMul b tweak = some u ↔ curve.seckey u = some (a * t) := by
  simp [seckeyTweakMul_eq_some, hb, ht]

theorem seckeyNegate_iff (hb : curve.seckey b = some a) :
    curve.seckeyNegate b = some u ↔ curve.seckey u = some (-a) := by
  simp [seckeyNegate_eq_some, hb]

theorem parseScalar_of_seckey (h : curve.seckey b = some a) : curve.parseScalar b = some a :=
  (seckey_eq_some.mp h).1

theorem value_of_seckey (h : curve.seckey b = some a) : curve.value b = a := by
  rw [value, parseScalar_of_seckey h, getD_some]

theorem seckey_of_hashToScalarTagged {tag rehashTag : List UInt8} {chunks : List (List UInt8)}
    (h : curve.hashToScalarTagged tag rehashTag chunks = some b) : ∃ a, curve.seckey b = some a :=
  seckeyVerify_iff.mp (List.find?_some h)

end Keys

section Hashes

variable {curve}

omit [DecidableEq F] [DecidableEq E]

theorem parse_of_tryCounter {counter : ℕ} {b : Point} (h : curve.tryCounter seed counter = some b) :
    ∃ p, curve.parsePoint b = some p := by
  obtain ⟨parity, -, h⟩ := List.exists_of_findSome?_eq_some h
  obtain ⟨p, hp, rfl⟩ := map_eq_some_iff.mp h
  exact ⟨p, curve.parse_serialize p (curve.ne_zero_of_parse _ _ hp)⟩

theorem parse_of_hashToPointFrom {tries counter : ℕ} {b : Point}
    (h : curve.hashToPointFrom seed tries counter = some b) : ∃ p, curve.parsePoint b = some p := by
  induction tries generalizing counter with
  | zero => contradiction
  | succ tries ih =>
    rcases or_eq_some_iff.mp h with h | ⟨-, h⟩
    · exact parse_of_tryCounter h
    · exact ih h

/-- A hash to a point is a point, and not the one at infinity. -/
theorem parse_of_hashToPoint {b : Point} (h : curve.hashToPoint seed = some b) :
    ∃ p, curve.parsePoint b = some p :=
  parse_of_hashToPointFrom h

end Hashes

section Sums

variable {curve}
variable {p q : E}

omit [DecidableEq F] in
theorem pubkeyCombine_pair {b : Point} :
    ((curve.pubkeyCombine [p, q]).bind fun sum => some (curve.serializePoint sum)) = some b ↔
      curve.parsePoint b = some (p + q) := by
  unfold pubkeyCombine
  rw [List.sum_pair]
  split
  · rename_i hzero
    simp only [bind_none, reduceCtorEq, false_iff]
    exact fun h => curve.ne_zero_of_parse _ _ h hzero
  · rename_i hne
    rw [bind_some, some.injEq, serializePoint_eq_iff hne]

/-- The sum of two points, each multiplied by a scalar. -/
theorem pubkeyTweakMul_pair {t : Scalar} :
    ((curve.pubkeyTweakMul p s).bind fun sp => (curve.pubkeyTweakMul q t).bind fun tq =>
      (curve.pubkeyCombine [sp, tq]).bind fun sum => some (curve.serializePoint sum)) = some out ↔
    ∃ a b, curve.seckey s = some a ∧ curve.seckey t = some b ∧
      curve.parsePoint out = some (a • p + b • q) := by
  unfold pubkeyTweakMul
  cases hs : curve.seckey s with
  | none => simp
  | some a =>
    cases ht : curve.seckey t with
    | none => simp
    | some b =>
      rw [map_some, map_some, bind_some, bind_some,
        pubkeyCombine_pair]
      simp

omit [DecidableEq F] in
theorem addPoints_eq_some {a b c : Point} :
    curve.addPoints a b = some c ↔ ∃ p q, curve.parsePoint a = some p ∧
      curve.parsePoint b = some q ∧ curve.parsePoint c = some (p + q) := by
  constructor
  · intro h
    obtain ⟨p, hp, h⟩ := bind_eq_some_iff.mp h
    obtain ⟨q, hq, h⟩ := bind_eq_some_iff.mp h
    exact ⟨p, q, hp, hq, pubkeyCombine_pair.mp h⟩
  · rintro ⟨p, q, hp, hq, h⟩
    refine bind_eq_some_iff.mpr ⟨p, hp, bind_eq_some_iff.mpr ⟨q, hq, ?_⟩⟩
    exact pubkeyCombine_pair.mpr h

omit [DecidableEq F] in
theorem addPoints_iff {a b c : Point} (ha : curve.parsePoint a = some p)
    (hb : curve.parsePoint b = some q) :
    curve.addPoints a b = some c ↔ curve.parsePoint c = some (p + q) := by
  simp [addPoints_eq_some, ha, hb]

end Sums

end Secp256k1

end Pricoin.CurveBytes
