import Mathlib.Data.List.Basic

/-!
Hash functions without collisions. What goes into a hash is a sequence of bytes and
of digests that were computed before, so that digests need not be byte strings and
the function can be injective. The terms of the algebra are such digests.
-/
namespace Pricoin.SymbolicHashes

open Function List

inductive Atom (δ : Type) where
  | byte (b : UInt8)
  | digest (d : δ)

/-- The content of a hash writer. -/
abbrev Message (δ : Type) := List (Atom δ)

variable {δ : Type}

def bytes (bs : List UInt8) : Message δ := bs.map Atom.byte

theorem bytes_injective : Injective (bytes : List UInt8 → Message δ) :=
  map_injective_iff.mpr fun _ _ h => Atom.byte.inj h

/-- An injective hash that a given constant is no value of. -/
structure Hasher (δ : Type) where
  sha256 : Message δ → δ
  injective : Injective sha256
  one : δ
  one_ne : ∀ content, sha256 content ≠ one

namespace Hasher

variable (H : Hasher δ)

/-- The hash of a digest. -/
def sha256Uint256 (d : δ) : δ := H.sha256 [.digest d]

/-- The double hash of a writer's content. -/
def getHash (content : Message δ) : δ := H.sha256Uint256 (H.sha256 content)

theorem getHash_injective : Injective H.getHash := by
  intro content content' h
  have hinner := H.injective h
  rw [cons.injEq] at hinner
  exact H.injective (Atom.digest.inj hinner.1)

theorem getHash_ne_one (content : Message δ) : H.getHash content ≠ H.one := H.one_ne _

/-- A digest in front of a tail of fixed length can be read off the hash. -/
theorem digest_eq_of_getHash_eq {front front' tail tail' : Message δ} {d d' : δ}
    (hlen : tail.length = tail'.length)
    (h : H.getHash (front ++ .digest d :: tail) = H.getHash (front' ++ .digest d' :: tail')) :
    d = d' := by
  have hcontent := H.getHash_injective h
  have hends := append_inj_right' hcontent (by simp [hlen])
  rw [cons.injEq] at hends
  exact Atom.digest.inj hends.1

end Hasher

/-- Digests as terms. -/
inductive Digest where
  | one
  | sha256 (content : List (Atom Digest))

def termHasher : Hasher Digest where
  sha256 := .sha256
  injective _ _ h := Digest.sha256.inj h
  one := .one
  one_ne _ := nofun

end Pricoin.SymbolicHashes
