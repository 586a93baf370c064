import Mathlib.Logic.Function.Basic
import Pricoin.Runs

/-!
Databases with caches that are found by address. A process opens databases at addresses,
closes them, and operates on what is open at an address. What an operation keeps in memory
it keeps under the address, and closing does not take it away. An address may be used again.
Where it is used again by another database, that one is served from the memory of the
first. Where each address is used by one database, every database fares as if it were
alone.
-/
namespace Pricoin.AddressedCaches

open Function Option

variable {α ω κ σ ι ο : Type}

/-- What operations do with memory and database. It may depend on whose they are. -/
structure Program (ω κ σ ι ο : Type) where
  fresh : κ
  run : ω → ι → κ → σ → ο × κ × σ

/-- The databases, what is open where, and the memory under each address. The user of an address,
the last one to operate there, is a note for the proofs. -/
structure Process (α ω κ σ : Type) where
  databases : ω → σ
  opened : α → Option ω
  caches : α → Option κ
  user : α → Option ω

/-- A process at its start. -/
def Process.start (databases : ω → σ) : Process α ω κ σ :=
  ⟨databases, fun _ => none, fun _ => none, fun _ => none⟩

inductive Event (α ω ι : Type) where
  | load (x : ω) (a : α)
  | unload (a : α)
  | operate (a : α) (input : ι)

/-- Memory at an address is of the one that is open there. -/
def Kept (p : Process α ω κ σ) : Prop :=
  ∀ a x, p.opened a = some x → p.caches a = none ∨ p.user a = some x

theorem kept_start (databases : ω → σ) : Kept (Process.start databases : Process α ω κ σ) :=
  fun _ _ _ => .inl rfl

variable [DecidableEq ω]

/-- The second process is the part of the first that is of `x`. -/
structure Part (x : ω) (p q : Process α ω κ σ) : Prop where
  database : q.databases x = p.databases x
  opened : ∀ a, q.opened a = if p.opened a = some x then some x else none
  caches : ∀ a, q.caches a = if p.user a = some x then p.caches a else none

theorem part_start (x : ω) (databases : ω → σ) :
    Part x (Process.start databases : Process α ω κ σ) (.start databases) :=
  ⟨rfl, fun _ => rfl, fun _ => rfl⟩

variable [DecidableEq α] (P : Program ω κ σ ι ο)

/-- An operation of an open database at its address. -/
def operate (p : Process α ω κ σ) (a : α) (x : ω) (input : ι) : ο × Process α ω κ σ :=
  let (output, cache, database) := P.run x input ((p.caches a).getD P.fresh) (p.databases x)
  (output,
    { p with
      databases := Function.update p.databases x database
      caches := Function.update p.caches a (some cache)
      user := Function.update p.user a (some x) })

def step (p : Process α ω κ σ) : Event α ω ι → Process α ω κ σ
  | .load x a =>
    if p.opened a = none then { p with opened := Function.update p.opened a (some x) } else p
  | .unload a => { p with opened := Function.update p.opened a none }
  | .operate a input =>
    match p.opened a with
    | none => p
    | some x => (operate P p a x input).2

/-- What an event gives back, and to whom. -/
def answer (p : Process α ω κ σ) : Event α ω ι → Option (ω × ο)
  | .operate a input => (p.opened a).map fun x => (x, (operate P p a x input).1)
  | _ => none

/-- What the operations of one database give back. -/
def answers (x : ω) : Process α ω κ σ → List (Event α ω ι) → List ο
  | _, [] => []
  | p, e :: es => ((answer P p e).filter (·.1 = x)).toList.map (·.2) ++ answers x (step P p e) es

/-- The events that are of one database. -/
def Concerns (x : ω) (p : Process α ω κ σ) : Event α ω ι → Prop
  | .load y a => y = x ∧ p.opened a = none
  | .unload a => p.opened a = some x
  | .operate a _ => p.opened a = some x

instance (x : ω) (p : Process α ω κ σ) (e : Event α ω ι) : Decidable (Concerns x p e) := by
  cases e <;> unfold Concerns <;> infer_instance

/-- The history with the events of one database only. -/
def own (x : ω) : Process α ω κ σ → List (Event α ω ι) → List (Event α ω ι)
  | _, [] => []
  | p, e :: es => if Concerns x p e then e :: own x (step P p e) es else own x (step P p e) es

/-- A database is opened at an address that no other has left memory at. -/
def Apart (p : Process α ω κ σ) : Event α ω ι → Prop
  | .load x a => p.caches a = none ∨ p.user a = some x
  | _ => True

section Isolation

variable {P}
variable {p q : Process α ω κ σ} {x : ω} {e : Event α ω ι}

theorem step_operate {a : α} (input : ι) (h : p.opened a = some x) :
    step P p (.operate a input) = (operate P p a x input).2 := by
  simp only [step, h]

theorem Kept.step (h : Kept p) (hapart : Apart p e) : Kept (step P p e) := by
  intro b y hb
  cases e with
  | load x a =>
    by_cases hfree : p.opened a = none
    · simp only [AddressedCaches.step, if_pos hfree] at hb ⊢
      by_cases hba : b = a
      · subst hba
        rw [update_self, some.injEq] at hb
        exact hb ▸ hapart
      · rw [update_of_ne hba] at hb
        exact h b y hb
    · simp only [AddressedCaches.step, if_neg hfree] at hb ⊢
      exact h b y hb
  | unload a =>
    by_cases hba : b = a
    · subst hba
      simp [AddressedCaches.step] at hb
    · simp only [AddressedCaches.step, update_of_ne hba] at hb
      exact h b y hb
  | operate a input =>
    cases ha : p.opened a with
    | none =>
      simp only [AddressedCaches.step, ha] at hb ⊢
      exact h b y hb
    | some x =>
      rw [step_operate input ha] at hb ⊢
      have hopened : p.opened b = some y := hb
      by_cases hba : b = a
      · subst hba
        refine .inr ?_
        simp only [operate, update_self]
        exact ha.symm.trans hopened
      · simp only [operate, update_of_ne hba]
        exact h b y hopened

/-- An event of another leaves the part as it is. -/
theorem Part.step_other (h : Part x p q) (hkept : Kept p) (hother : ¬ Concerns x p e) :
    Part x (step P p e) q := by
  cases e with
  | load y a =>
    by_cases hfree : p.opened a = none
    · have hne : y ≠ x := fun heq => hother ⟨heq, hfree⟩
      simp only [step, if_pos hfree]
      refine ⟨h.database, fun b => ?_, h.caches⟩
      rw [h.opened b]
      by_cases hba : b = a
      · subst hba
        simp [hfree, hne]
      · simp only [update_of_ne hba]
    · simp only [step, if_neg hfree]
      exact h
  | unload a =>
    refine ⟨h.database, fun b => ?_, h.caches⟩
    rw [h.opened b]
    by_cases hba : b = a
    · subst hba
      have hnot : p.opened b ≠ some x := hother
      simp [step, hnot]
    · simp only [step, update_of_ne hba]
  | operate a input =>
    cases ha : p.opened a with
    | none =>
      simp only [step, ha]
      exact h
    | some y =>
      have hne : y ≠ x := fun heq => hother (ha.trans (congrArg some heq))
      rw [step_operate input ha]
      refine ⟨?_, h.opened, fun b => ?_⟩
      · simp only [operate, update_of_ne hne.symm]
        exact h.database
      · rw [h.caches b]
        by_cases hba : b = a
        · subst hba
          simp only [operate, update_self, some.injEq, if_neg hne]
          rcases hkept b y ha with hnone | huser
          · rw [hnone, ite_self]
          · rw [huser, if_neg (by simpa using hne)]
        · simp only [operate, update_of_ne hba]

/-- An event of the database is the same in the part. -/
theorem Part.step_own (h : Part x p q) (hkept : Kept p) (hown : Concerns x p e) :
    Part x (step P p e) (step P q e) ∧ answer P q e = answer P p e := by
  cases e with
  | load y a =>
    obtain ⟨rfl, hfree⟩ := hown
    have hfree' : q.opened a = none := by rw [h.opened a, hfree, if_neg nofun]
    simp only [step, if_pos hfree, if_pos hfree']
    refine ⟨⟨h.database, fun b => ?_, h.caches⟩, rfl⟩
    by_cases hba : b = a
    · subst hba
      simp
    · simp only [update_of_ne hba]
      exact h.opened b
  | unload a =>
    refine ⟨⟨h.database, fun b => ?_, h.caches⟩, rfl⟩
    by_cases hba : b = a
    · subst hba
      simp [step]
    · simp only [step, update_of_ne hba]
      exact h.opened b
  | operate a input =>
    have ha : p.opened a = some x := hown
    have ha' : q.opened a = some x := by rw [h.opened a, if_pos ha]
    have hcache : q.caches a = p.caches a := by
      rw [h.caches a]
      rcases hkept a x ha with hnone | huser
      · rw [hnone, ite_self]
      · rw [if_pos huser]
    rw [step_operate input ha, step_operate input ha']
    refine ⟨⟨?_, h.opened, fun b => ?_⟩, ?_⟩
    · simp only [operate, update_self, hcache, h.database]
    · by_cases hba : b = a
      · subst hba
        simp only [operate, update_self, if_true, hcache, h.database]
      · simp only [operate, update_of_ne hba]
        exact h.caches b
    · simp only [answer, ha, ha', map_some, operate, hcache, h.database]

/-- Another's event gives nothing to the database. -/
theorem answer_other (hother : ¬ Concerns x p e) : (answer P p e).filter (·.1 = x) = none := by
  cases e with
  | load y a => rfl
  | unload a => rfl
  | operate a input =>
    cases ha : p.opened a with
    | none => simp [answer, ha]
    | some y =>
      have hne : y ≠ x := fun heq => hother (ha.trans (congrArg some heq))
      simp [answer, ha, hne]

/-- Where every address is used by one database, the answers that a database gets and what it
comes to hold are those of its own events. -/
theorem isolated (hkept : Kept p) (hpart : Part x p q) {events : List (Event α ω ι)}
    (hapart : Runs.Always (step P) Apart p events) :
    answers P x p events = answers P x q (own P x p events) ∧
      (events.foldl (step P) p).databases x =
        ((own P x p events).foldl (step P) q).databases x := by
  induction events generalizing p q with
  | nil => exact ⟨rfl, hpart.database.symm⟩
  | cons e events ih =>
    have hnext := hkept.step (P := P) hapart.1
    by_cases hown : Concerns x p e
    · obtain ⟨hpart', hanswer⟩ := hpart.step_own (P := P) hkept hown
      obtain ⟨hrest, hdatabase⟩ := ih hnext hpart' hapart.2
      rw [own, if_pos hown, answers, answers, hanswer, hrest]
      exact ⟨rfl, hdatabase⟩
    · obtain ⟨hrest, hdatabase⟩ := ih hnext (hpart.step_other hkept hown) hapart.2
      rw [own, if_neg hown, answers, answer_other hown, hrest]
      exact ⟨rfl, hdatabase⟩

end Isolation

end Pricoin.AddressedCaches
