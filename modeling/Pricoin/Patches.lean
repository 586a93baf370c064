import Mathlib.Data.Option.Basic
import Mathlib.Data.List.Basic

/-!
Patches of a function: new values at some keys. Where patches are applied in order,
the last one that has a value at a key wins. Applying them again to a function that
some of their values have already reached gives the same result as the first time.
-/
namespace Pricoin.Patches

variable {κ ν : Type*}

abbrev Patch (κ ν : Type*) := κ → Option ν

namespace Patch

def apply (p : Patch κ ν) (f : κ → ν) : κ → ν := fun k => (p k).getD (f k)

/-- What a list of patches leaves at each key. -/
def last : List (Patch κ ν) → Patch κ ν
  | [] => fun _ => none
  | p :: ps => fun k => (last ps k).or (p k)

def applyAll (ps : List (Patch κ ν)) (f : κ → ν) : κ → ν := ps.foldl (fun f p => p.apply f) f

/-- Each value is the old one or one that some patch has there. -/
def PartlyApplied (ps : List (Patch κ ν)) (f g : κ → ν) : Prop :=
  ∀ k, g k = f k ∨ ∃ p ∈ ps, p k = some (g k)

theorem applyAll_eq (ps : List (Patch κ ν)) (f : κ → ν) : applyAll ps f = (last ps).apply f := by
  induction ps generalizing f with
  | nil => rfl
  | cons p ps ih =>
    funext k
    have hstep : applyAll (p :: ps) f k = (last ps).apply (p.apply f) k := by
      rw [← ih]
      rfl
    rw [hstep]
    simp only [apply, last]
    cases last ps k <;> rfl

theorem last_eq_none {ps : List (Patch κ ν)} {k : κ} :
    last ps k = none ↔ ∀ p ∈ ps, p k = none := by
  induction ps with
  | nil => simp [last]
  | cons p ps ih => simp [last, ih, and_comm]

/-- Keys that no patch touches keep their value however far the patches have come. -/
theorem PartlyApplied.eq_of_last_none {ps : List (Patch κ ν)} {f g : κ → ν}
    (h : PartlyApplied ps f g) {k : κ} (hk : last ps k = none) : g k = f k := by
  rcases h k with heq | ⟨p, hp, hval⟩
  · exact heq
  · rw [last_eq_none.mp hk p hp] at hval
    contradiction

end Patch

end Pricoin.Patches
