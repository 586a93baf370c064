import Mathlib.Algebra.Module.Basic
import Mathlib.Data.Nat.Prime.Defs
import Mathlib.Tactic.FieldSimp
import Mathlib.Tactic.LinearCombination
import Mathlib.Tactic.Module

/-!
ECDSA over a group of points with scalars in a field. A forger who knows a point only
as such builds all other points from it and the generator, and the signature equation
then has to hold whatever the discrete logarithm of that point is. The equation ties
the part of the point in the key to its part in the nonce, and nothing more: any nonce
with a part in the point signs for a key that the equation is solved for.
-/
namespace Pricoin.Ecdsa

structure Curve (F E : Type) [Field F] [AddCommGroup E] [Module F E] where
  G : E
  /-- The first coordinate, as a scalar. -/
  xCoord : E → F
  xCoord_neg : ∀ p, xCoord (-p) = xCoord p

structure Signature (F : Type) where
  r : F
  s : F

variable {F E : Type} [Field F] [AddCommGroup E] [Module F E]

namespace Curve

variable (c : Curve F E)

/-- The point that a verifier computes. -/
def noncePoint (e : F) (sig : Signature F) (key : E) : E :=
  (e / sig.s) • c.G + (sig.r / sig.s) • key

def Verifies (e : F) (sig : Signature F) (key : E) : Prop :=
  sig.r ≠ 0 ∧ sig.s ≠ 0 ∧ c.noncePoint e sig key ≠ 0 ∧ c.xCoord (c.noncePoint e sig key) = sig.r

instance [DecidableEq F] [DecidableEq E] (e : F) (sig : Signature F) (key : E) :
    Decidable (c.Verifies e sig key) := by
  unfold Verifies
  infer_instance

def negateS (sig : Signature F) : Signature F := ⟨sig.r, -sig.s⟩

variable {c}

theorem noncePoint_negateS (e : F) (sig : Signature F) (key : E) :
    c.noncePoint e (negateS sig) key = -c.noncePoint e sig key := by
  simp only [noncePoint, negateS, div_neg, neg_smul, neg_add]

theorem verifies_negateS {e : F} {sig : Signature F} {key : E} :
    c.Verifies e (negateS sig) key ↔ c.Verifies e sig key := by
  unfold Verifies
  rw [noncePoint_negateS, c.xCoord_neg, neg_ne_zero]
  simp [negateS]

end Curve

/-- A point as a combination of a known point and the generator. -/
structure Combination (F : Type) where
  ofPoint : F
  ofG : F

def Combination.eval (c : Curve F E) (known : E) (q : Combination F) : E :=
  q.ofPoint • known + q.ofG • c.G

/-- What a forger puts out: a key, the point of the nonce and a signature. -/
structure Forgery (F : Type) where
  key : Combination F
  nonce : Combination F
  sig : Signature F

namespace Forgery

/-- The signature equation holds for every discrete logarithm of the known point. -/
def IsIdentity (f : Forgery F) (e : F) : Prop :=
  ∀ a : F, f.nonce.ofPoint * a + f.nonce.ofG =
    e / f.sig.s + f.sig.r / f.sig.s * (f.key.ofPoint * a + f.key.ofG)

theorem isIdentity_iff {f : Forgery F} {e : F} : f.IsIdentity e ↔
    f.nonce.ofPoint = f.sig.r / f.sig.s * f.key.ofPoint ∧
      f.nonce.ofG = e / f.sig.s + f.sig.r / f.sig.s * f.key.ofG := by
  constructor
  · intro h
    have hzero := h 0
    have hone := h 1
    simp only [mul_zero, zero_add, mul_one] at hzero hone
    refine ⟨?_, hzero⟩
    linear_combination hone - hzero
  · rintro ⟨hpoint, hG⟩ a
    rw [hpoint, hG]
    ring

theorem IsIdentity.noncePoint_eq {c : Curve F E} {f : Forgery F} {e : F} (h : f.IsIdentity e)
    (known : E) : c.noncePoint e f.sig (f.key.eval c known) = f.nonce.eval c known := by
  obtain ⟨hpoint, hG⟩ := isIdentity_iff.mp h
  unfold Curve.noncePoint Combination.eval
  rw [hpoint, hG]
  module

theorem IsIdentity.ofPoint_eq_zero_iff {f : Forgery F} {e : F} (h : f.IsIdentity e)
    (hr : f.sig.r ≠ 0) (hs : f.sig.s ≠ 0) : f.key.ofPoint = 0 ↔ f.nonce.ofPoint = 0 := by
  rw [(isIdentity_iff.mp h).1, mul_eq_zero]
  simp [hr, hs]

/-- Solve the equation for the signature and the key, from a nonce point and the part of the
known point that the key is to have. -/
def solve (e : F) (nonce : Combination F) (r ofPoint : F) : Forgery F :=
  let s := r * ofPoint / nonce.ofPoint
  ⟨⟨ofPoint, (s * nonce.ofG - e) / r⟩, nonce, ⟨r, s⟩⟩

theorem isIdentity_solve {e r ofPoint : F} {nonce : Combination F} (hnonce : nonce.ofPoint ≠ 0)
    (hr : r ≠ 0) (hpoint : ofPoint ≠ 0) : (solve e nonce r ofPoint).IsIdentity e := by
  refine isIdentity_iff.mpr ⟨?_, ?_⟩
  · simp only [solve]
    field_simp
  · simp only [solve]
    field_simp
    ring

end Forgery

/-- The prime of the samples. -/
instance fact_prime_seven : Fact (Nat.Prime 7) := ⟨by decide⟩

end Pricoin.Ecdsa
