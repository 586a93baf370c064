import Mathlib.Algebra.Module.ZMod
import Mathlib.Data.ZMod.Basic
import Mathlib.Algebra.BigOperators.Group.List.Basic

/-!
Commitments to numbers with two independent generators of a group of order `n`. A
commitment hides its value behind a multiple of the second generator, and no two
values open the same one. Commitments add up as their values do, so that a balance
of commitments is a balance of values modulo `n`, and of the values themselves where
their sums are smaller than `n`.
-/
namespace Pricoin.Pedersen

variable {n : ℕ} {E : Type} [AddCommGroup E] [Module (ZMod n) E]

structure Generators (n : ℕ) (E : Type) [AddCommGroup E] [Module (ZMod n) E] where
  G : E
  H : E
  independent : ∀ a b : ZMod n, a • H + b • G = 0 → a = 0 ∧ b = 0

namespace Generators

variable (g : Generators n E)

def commit (value blind : ZMod n) : E := value • g.H + blind • g.G

/-- The point commits to the number. -/
def Opens (p : E) (value : ℕ) : Prop := ∃ blind, p = g.commit value blind

variable {g}

theorem commit_add (v b v' b' : ZMod n) :
    g.commit v b + g.commit v' b' = g.commit (v + v') (b + b') := by
  unfold commit
  rw [add_smul, add_smul, add_add_add_comm]

theorem commit_sub (v b v' b' : ZMod n) :
    g.commit v b - g.commit v' b' = g.commit (v - v') (b - b') := by
  unfold commit
  rw [sub_smul, sub_smul, add_sub_add_comm]

/-- The value of a commitment is the only one. -/
theorem commit_inj {v b v' b' : ZMod n} (h : g.commit v b = g.commit v' b') : v = v' := by
  have hzero : (v - v') • g.H + (b - b') • g.G = 0 := by
    have hsub := commit_sub (g := g) v b v' b'
    rw [h, sub_self] at hsub
    exact hsub.symm
  exact sub_eq_zero.mp (g.independent _ _ hzero).1

theorem Opens.unique {p : E} {v w : ℕ} (hv : g.Opens p v) (hw : g.Opens p w) (hvn : v < n)
    (hwn : w < n) : v = w := by
  obtain ⟨b, rfl⟩ := hv
  obtain ⟨b', hb'⟩ := hw
  have hcast := commit_inj hb'
  rwa [ZMod.natCast_eq_natCast_iff', Nat.mod_eq_of_lt hvn, Nat.mod_eq_of_lt hwn] at hcast

/-- Points that differ in a multiple of the blinding generator commit to the same number. -/
theorem Opens.of_sub {p q : E} {v : ℕ} (hp : g.Opens p v) {z : ZMod n} (h : p - q = z • g.G) :
    g.Opens q v := by
  obtain ⟨b, rfl⟩ := hp
  refine ⟨b - z, ?_⟩
  calc q = g.commit v b - (g.commit v b - q) := (sub_sub_cancel _ _).symm
    _ = g.commit v b - z • g.G := by rw [h]
    _ = g.commit v (b - z) := by rw [commit, commit, sub_smul, add_sub_assoc]

theorem opens_sum {ps : List E} {vs : List ℕ} (h : List.Forall₂ g.Opens ps vs) :
    g.Opens ps.sum vs.sum := by
  induction h with
  | nil => exact ⟨0, by simp [commit]⟩
  | cons hhead _ ih =>
    obtain ⟨b, rfl⟩ := hhead
    obtain ⟨b', hb'⟩ := ih
    refine ⟨b + b', ?_⟩
    rw [List.sum_cons, List.sum_cons, hb', commit_add, Nat.cast_add]

/-- A balance of commitments, with a fee in the open, is a balance of values. -/
theorem sum_eq_of_balance {ps qs : List E} {vs ws : List ℕ} {fee : ℕ}
    (hps : List.Forall₂ g.Opens ps vs) (hqs : List.Forall₂ g.Opens qs ws)
    (hsum : ps.sum = qs.sum + g.commit fee 0) (hin : vs.sum < n) (hout : ws.sum + fee < n) :
    vs.sum = ws.sum + fee := by
  have hright : g.Opens (qs.sum + g.commit fee 0) (ws.sum + fee) := by
    obtain ⟨b, hb⟩ := opens_sum hqs
    exact ⟨b + 0, by rw [hb, commit_add, Nat.cast_add]⟩
  exact Opens.unique (hsum ▸ opens_sum hps) hright hin hout

end Generators

end Pricoin.Pedersen
