import Mathlib.Data.List.Basic
import Pricoin.Checks

/-!
Runs of a state machine. A run is a list of actions carried out one after the
other. A condition on the steps of a run is read at the state in which each step
is taken. Where steps can fail, a run is one whose steps all succeed.
-/
namespace Pricoin.Runs

open List

variable {σ α : Type*}

section Total

variable (step : σ → α → σ)

/-- Every step of the run is taken where `P` holds of it. -/
def Always (P : σ → α → Prop) : σ → List α → Prop
  | _, [] => True
  | s, a :: as => P s a ∧ Always P (step s a) as

/-- Some step of the run is taken where `P` holds of it. -/
def Sometime (P : σ → α → Prop) : σ → List α → Prop
  | _, [] => False
  | s, a :: as => P s a ∨ Sometime P (step s a) as

instance Always.decidable {P : σ → α → Prop} [∀ s a, Decidable (P s a)] :
    (s : σ) → (as : List α) → Decidable (Always step P s as)
  | _, [] => isTrue trivial
  | s, a :: as =>
    haveI : Decidable (Always step P (step s a) as) := Always.decidable (step s a) as
    inferInstanceAs (Decidable (P s a ∧ Always step P (step s a) as))

instance Sometime.decidable {P : σ → α → Prop} [∀ s a, Decidable (P s a)] :
    (s : σ) → (as : List α) → Decidable (Sometime step P s as)
  | _, [] => isFalse id
  | s, a :: as =>
    haveI : Decidable (Sometime step P (step s a) as) := Sometime.decidable (step s a) as
    inferInstanceAs (Decidable (P s a ∨ Sometime step P (step s a) as))

variable {step} {P : σ → α → Prop}
variable {s : σ} {as : List α}

/-- What each admitted step preserves holds after a run of such steps. -/
theorem Always.invariant {Inv : σ → Prop} (hstep : ∀ s a, P s a → Inv s → Inv (step s a))
    (has : Always step P s as) (hs : Inv s) : Inv (as.foldl step s) := by
  induction as generalizing s with
  | nil => exact hs
  | cons a as ih => exact ih has.2 (hstep s a has.1 hs)

theorem Always.imp {Q : σ → α → Prop} (himp : ∀ s a, P s a → Q s a) (has : Always step P s as) :
    Always step Q s as := by
  induction as generalizing s with
  | nil => trivial
  | cons a as ih => exact ⟨himp s a has.1, ih has.2⟩

theorem always_of_forall (h : ∀ s a, P s a) (as : List α) : Always step P s as := by
  induction as generalizing s with
  | nil => trivial
  | cons a as ih => exact ⟨h s a, ih⟩

/-- What the steps of a list preserve holds at each of them and at the end. -/
theorem always_of_invariant (Inv : σ → Prop) (hstep : ∀ s, ∀ a ∈ as, Inv s → Inv (step s a))
    (hP : ∀ s, ∀ a ∈ as, Inv s → P s a) (hs : Inv s) :
    Always step P s as ∧ Inv (as.foldl step s) := by
  induction as generalizing s with
  | nil => exact ⟨trivial, hs⟩
  | cons a as ih =>
    simp only [forall_mem_cons, forall_and] at hstep hP
    obtain ⟨hrest, hend⟩ := ih hstep.2 hP.2 (hstep.1 s hs)
    exact ⟨⟨hP.1 s hs, hrest⟩, hend⟩

theorem Always.append {bs : List α} :
    Always step P s (as ++ bs) ↔ Always step P s as ∧ Always step P (as.foldl step s) bs := by
  induction as generalizing s with
  | nil => simp [Always]
  | cons a as ih => simp [Always, ih, and_assoc]

theorem not_sometime : ¬ Sometime step P s as ↔ Always step (fun t a => ¬ P t a) s as := by
  induction as generalizing s with
  | nil => simp [Always, Sometime]
  | cons a as ih => simp [Always, Sometime, ih]

theorem Sometime.exists_split (h : Sometime step P s as) :
    ∃ pre a post, as = pre ++ a :: post ∧ P (pre.foldl step s) a := by
  induction as generalizing s with
  | nil => exact absurd h id
  | cons a as ih =>
    rcases h with h | h
    · exact ⟨[], a, as, rfl, h⟩
    · obtain ⟨pre, b, post, rfl, hb⟩ := ih h
      exact ⟨a :: pre, b, post, rfl, hb⟩

end Total

section Fallible

variable {ε σ α : Type} (step : σ → α → Except ε σ)

/-- Take steps as long as they succeed. -/
def run : σ → List α → Except ε σ
  | s, [] => .ok s
  | s, a :: as => do
    let s ← step s a
    run s as

/-- Every step of the run is taken where `P` holds of it. -/
def AlwaysOk (P : σ → α → Prop) : σ → List α → Prop
  | _, [] => True
  | s, a :: as => P s a ∧ ∀ s', step s a = .ok s' → AlwaysOk P s' as

variable {step} {P : σ → α → Prop}
variable {s s' : σ} {as : List α}

/-- What each admitted step preserves holds after a run of such steps. -/
theorem AlwaysOk.invariant (Inv : σ → Prop)
    (hstep : ∀ s a s', P s a → step s a = .ok s' → Inv s → Inv s') (has : AlwaysOk step P s as)
    (h : run step s as = .ok s') (hs : Inv s) : Inv s' := by
  induction as generalizing s with
  | nil =>
    rw [run, Except.ok.injEq] at h
    exact h ▸ hs
  | cons a as ih =>
    rw [run, Checks.bind_ok] at h
    obtain ⟨t, ht, hrest⟩ := h
    exact ih (has.2 t ht) hrest (hstep s a t has.1 ht hs)

theorem alwaysOk_of_forall (h : ∀ a ∈ as, ∀ s, P s a) (s : σ) : AlwaysOk step P s as := by
  induction as generalizing s with
  | nil => trivial
  | cons a as ih =>
    exact ⟨h a mem_cons_self s,
      fun s' _ => ih (fun a' ha' => h a' (mem_cons_of_mem _ ha')) s'⟩

theorem run_append {bs : List α} :
    run step s (as ++ bs) = .ok s' ↔ ∃ t, run step s as = .ok t ∧ run step t bs = .ok s' := by
  induction as generalizing s with
  | nil => simp [run]
  | cons a as ih =>
    rw [cons_append, run, Checks.bind_ok]
    simp only [ih, run, Checks.bind_ok]
    constructor
    · rintro ⟨u, hu, t, ht, hrest⟩
      exact ⟨t, ⟨u, hu, ht⟩, hrest⟩
    · rintro ⟨t, ⟨u, hu, ht⟩, hrest⟩
      exact ⟨u, hu, t, ht, hrest⟩

theorem alwaysOk_append {bs : List α} (has : AlwaysOk step P s as)
    (hbs : ∀ t, run step s as = .ok t → AlwaysOk step P t bs) : AlwaysOk step P s (as ++ bs) := by
  induction as generalizing s with
  | nil => exact hbs s rfl
  | cons a as ih =>
    refine ⟨has.1, fun t ht => ih (has.2 t ht) fun u hu => hbs u ?_⟩
    rw [run, Checks.bind_ok]
    exact ⟨t, ht, hu⟩

/-- What every step preserves holds after every run. -/
theorem run_invariant {Inv : σ → Prop} (hstep : ∀ s a s', step s a = .ok s' → Inv s → Inv s')
    (h : run step s as = .ok s') (hs : Inv s) : Inv s' :=
  (alwaysOk_of_forall (fun _ _ _ => trivial) s).invariant (P := fun _ _ => True) Inv
    (fun t a t' _ => hstep t a t') h hs

/-- Where every step of an abstract machine is followed without an error, so is every run. -/
theorem run_refines {β : Type} {plain : β → α → Option β} {Inv : σ → Prop} (shown : σ → β)
    (hstep : ∀ s a v, Inv s → plain (shown s) a = some v →
      ∃ s', step s a = .ok s' ∧ Inv s' ∧ shown s' = v)
    {s : σ} {as : List α} {v : β} (hs : Inv s) (h : as.foldlM plain (shown s) = some v) :
    ∃ s', run step s as = .ok s' ∧ Inv s' ∧ shown s' = v := by
  induction as generalizing s with
  | nil => exact ⟨s, rfl, hs, by simpa using h⟩
  | cons a as ih =>
    rw [foldlM_cons, Option.bind_eq_bind, Option.bind_eq_some_iff] at h
    obtain ⟨w, hw, hrest⟩ := h
    obtain ⟨t, ht, hinv, rfl⟩ := hstep s a w hs hw
    obtain ⟨s', hrun, hend⟩ := ih hinv hrest
    exact ⟨s', by rw [run, Checks.bind_ok]; exact ⟨t, ht, hrun⟩, hend⟩

end Fallible

end Pricoin.Runs
