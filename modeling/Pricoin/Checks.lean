import Mathlib.Data.List.Forall2

/-!
Validation code as computations that stop at the first failed check. Each rule
says what a successful computation has established, so that a proof reads the
checks off one after the other.
-/
namespace Pricoin.Checks

open List

variable {c : Prop}

variable {ε α β : Type}
variable {stopped : ε → Prop} {x : Except ε α} {f : α → Except ε β} {e : ε} {as : List α}

/-- Stop with an error when a condition holds. -/
def rejectIf (c : Prop) [Decidable c] (e : ε) : Except ε Unit := if c then .error e else .ok ()

/-- Run a check on every element in turn. -/
def checkAll (f : α → Except ε Unit) : List α → Except ε Unit
  | [] => .ok ()
  | a :: as => do
    f a
    checkAll f as

/-- The computation succeeds with a result that passes the test. -/
def succeeds (p : α → Bool) : Except ε α → Bool
  | .ok a => p a
  | .error _ => false

/-- What a computation establishes when it stops and when it succeeds. -/
def Ends (stopped : ε → Prop) (done : α → Prop) : Except ε α → Prop
  | .ok a => done a
  | .error e => stopped e

theorem Ends.bind {mid : α → Prop} {done : β → Prop} (hx : Ends stopped mid x)
    (hf : ∀ a, mid a → Ends stopped done (f a)) : Ends stopped done (x >>= f) := by
  cases x with
  | ok a => exact hf a hx
  | error e => exact hx

theorem Ends.imp {stopped' : ε → Prop} {done done' : α → Prop} (hx : Ends stopped done x)
    (hstopped : ∀ e, stopped e → stopped' e) (hdone : ∀ a, done a → done' a) :
    Ends stopped' done' x := by
  cases x with
  | ok a => exact hdone a hx
  | error e => exact hstopped e hx

theorem ends_rejectIf_not [Decidable c] (h : stopped e) :
    Ends stopped (fun _ => ¬ c) (rejectIf c e) := by
  unfold rejectIf
  split
  · exact h
  · assumption

theorem ends_rejectIf [Decidable c] (h : stopped e) :
    Ends stopped (fun _ => True) (rejectIf c e) := by
  unfold rejectIf
  split
  · exact h
  · trivial

@[simp] theorem rejectIf_ok [Decidable c] {u : Unit} : rejectIf c e = .ok u ↔ ¬ c := by
  unfold rejectIf
  by_cases h : c <;> simp [h]

@[simp] theorem bind_ok {b : β} : (x >>= f) = .ok b ↔ ∃ a, x = .ok a ∧ f a = .ok b := by
  cases x with
  | error e =>
    change Except.error e = Except.ok b ↔ _
    simp
  | ok a =>
    change f a = Except.ok b ↔ _
    simp

@[simp] theorem pure_ok {a b : α} : (pure a : Except ε α) = .ok b ↔ a = b := by
  change Except.ok a = Except.ok b ↔ _
  simp

@[simp] theorem mapError_ok {ε' : Type} {f : ε → ε'} {a : α} :
    x.mapError f = .ok a ↔ x = .ok a := by
  cases x <;> simp [Except.mapError]

theorem map_eq_ok {f : α → β} {b : β} : x.map f = .ok b ↔ ∃ a, x = .ok a ∧ f a = b := by
  cases x with
  | error e => simp [Except.map]
  | ok a => simp [Except.map]

theorem succeeds_iff {p : α → Bool} : succeeds p x = true ↔ ∃ a, x = .ok a ∧ p a = true := by
  cases x <;> simp [succeeds]

theorem checkAll_ok {f : α → Except ε Unit} {u : Unit} :
    checkAll f as = .ok u ↔ ∀ a ∈ as, f a = .ok () := by
  induction as with
  | nil => simp [checkAll]
  | cons a as ih =>
    rw [checkAll, bind_ok]
    simp only [ih, forall_mem_cons]
    exact ⟨fun ⟨_, h⟩ => h, fun h => ⟨(), h⟩⟩

theorem rejectIf_congr {c' : Prop} [Decidable c] [Decidable c'] (h : c ↔ c') (e : ε) :
    rejectIf c e = rejectIf c' e := by
  simp only [rejectIf, h]

theorem checkAll_congr {f g : α → Except ε Unit} (h : ∀ a ∈ as, f a = g a) :
    checkAll f as = checkAll g as := by
  induction as with
  | nil => rfl
  | cons a as ih =>
    rw [forall_mem_cons] at h
    rw [checkAll, checkAll, h.1, ih h.2]

/-- Collecting results succeeds with one result for each element. -/
theorem mapM_ok {bs : List β} :
    as.mapM f = .ok bs ↔ List.Forall₂ (fun a b => f a = .ok b) as bs := by
  induction as generalizing bs with
  | nil =>
    rw [mapM_nil, pure_ok, forall₂_nil_left_iff, eq_comm]
  | cons a as ih =>
    rw [mapM_cons, bind_ok]
    simp only [bind_ok, pure_ok, ih]
    constructor
    · rintro ⟨b, hb, bs, hbs, rfl⟩
      exact .cons hb hbs
    · rintro (_ | ⟨hb, hbs⟩)
      exact ⟨_, hb, _, hbs, rfl⟩

theorem bind_error : (x >>= f) = .error e ↔ x = .error e ∨ ∃ a, x = .ok a ∧ f a = .error e := by
  cases x with
  | error e' =>
    change Except.error e' = Except.error e ↔ _
    simp
  | ok a =>
    change f a = Except.error e ↔ _
    simp

theorem rejectIf_error [Decidable c] {e' : ε} : rejectIf c e = .error e' ↔ c ∧ e = e' := by
  unfold rejectIf
  by_cases h : c <;> simp [h]

/-- A list of checks fails where one of them does. -/
theorem checkAll_error {f : α → Except ε Unit} (h : checkAll f as = .error e) :
    ∃ a ∈ as, f a = .error e := by
  induction as with
  | nil => simp [checkAll] at h
  | cons a as ih =>
    rw [checkAll, bind_error] at h
    rcases h with h | ⟨-, -, h⟩
    · exact ⟨a, mem_cons_self, h⟩
    · obtain ⟨b, hb, hfail⟩ := ih h
      exact ⟨b, mem_cons_of_mem _ hb, hfail⟩

theorem mapM_error (h : as.mapM f = .error e) : ∃ a ∈ as, f a = .error e := by
  induction as with
  | nil =>
    change Except.ok [] = Except.error e at h
    contradiction
  | cons a as ih =>
    rw [mapM_cons, bind_error] at h
    rcases h with h | ⟨b, -, h⟩
    · exact ⟨a, mem_cons_self, h⟩
    · rw [bind_error] at h
      rcases h with h | ⟨bs, -, h⟩
      · obtain ⟨a', ha', hfail⟩ := ih h
        exact ⟨a', mem_cons_of_mem _ ha', hfail⟩
      · change Except.ok _ = Except.error e at h
        contradiction

theorem exists_right_of_mem {R : α → β → Prop} {bs : List β} (h : List.Forall₂ R as bs) {a : α}
    (ha : a ∈ as) : ∃ b ∈ bs, R a b := by
  induction h with
  | nil => simp at ha
  | cons hab _ ih =>
    rcases mem_cons.mp ha with rfl | ha
    · exact ⟨_, mem_cons_self, hab⟩
    · obtain ⟨b, hb, hr⟩ := ih ha
      exact ⟨b, mem_cons_of_mem _ hb, hr⟩

end Pricoin.Checks
