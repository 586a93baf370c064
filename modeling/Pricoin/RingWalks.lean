import Mathlib.Data.List.Range
import Mathlib.Data.Option.Basic
import Mathlib.Logic.Function.Basic

/-!
Walks around a ring of positions `0, …, N - 1`, where a partial step leads from the
value at a position to the value at the next. One party fills in the values from
behind some position all the way around to it, another starts from position 0 and
goes around once. If the step that was left out leads back to where the filling has
started, then the second walk ends where it began.
-/
namespace Pricoin.RingWalks

open List Option Function

variable {i : ℕ}

variable {C : Type} {step step' : ℕ → C → Option C}

/-- The steps at `k` positions from `i` on. -/
def walk (step : ℕ → C → Option C) : ℕ → ℕ → C → Option C
  | _, 0, c => some c
  | i, k + 1, c => (step i c).bind (walk step (i + 1) k)

/-- One turn of the filling, at `k` positions from `pi`. -/
def fillNext (step : ℕ → C → Option C) (N pi : ℕ) (c : ℕ → C) (k : ℕ) : Option (ℕ → C) :=
  let i := (pi + k) % N
  (step i (c i)).map (Function.update c ((i + 1) % N))

/-- The values around the ring of `N`, from the one behind `pi`. -/
def fillFrom (step : ℕ → C → Option C) (N pi : ℕ) (first : C) (blank : ℕ → C) :
    Option (ℕ → C) :=
  (List.range' 1 (N - 1)).foldlM (fillNext step N pi)
    (Function.update blank ((pi + 1) % N) first)

section Walks

@[simp] theorem walk_zero (i : ℕ) (c : C) : walk step i 0 c = some c := rfl

theorem walk_succ (i k : ℕ) (c : C) :
    walk step i (k + 1) c = (step i c).bind (walk step (i + 1) k) := rfl

theorem walk_add (i k m : ℕ) (c : C) :
    walk step i (k + m) c = (walk step i k c).bind (walk step (i + k) m) := by
  induction k generalizing i c with
  | zero => rw [Nat.zero_add, walk_zero, Nat.add_zero, bind_some]
  | succ k ih =>
    rw [Nat.succ_add, walk_succ, walk_succ, bind_assoc]
    refine bind_congr fun d _ => ?_
    rw [ih, Nat.add_right_comm, Nat.add_assoc]

theorem walk_congr {i k : ℕ} {c : C} (h : ∀ j, i ≤ j → j < i + k → step j = step' j) :
    walk step i k c = walk step' i k c := by
  induction k generalizing i c with
  | zero => rfl
  | succ k ih =>
    rw [walk_succ, walk_succ, h i (Nat.le_refl i) (by omega)]
    refine bind_congr fun d _ => ih fun j hj hlt => ?_
    exact h j (by omega) (by omega)

theorem walk_mono (h : ∀ j c d, step j c = some d → step' j c = some d) {i k : ℕ} {c e : C}
    (hwalk : walk step i k c = some e) : walk step' i k c = some e := by
  induction k generalizing i c with
  | zero => exact hwalk
  | succ k ih =>
    obtain ⟨d, hd, hwalk⟩ := bind_eq_some_iff.mp hwalk
    rw [walk_succ, h i c d hd, bind_some, ih hwalk]

theorem exists_step_of_walk {i k j : ℕ} {c e : C} (h : walk step i k c = some e) (hj : j < k) :
    ∃ c' d, step (i + j) c' = some d := by
  have hk : k = j + (k - (j + 1) + 1) := by omega
  rw [hk, walk_add] at h
  obtain ⟨c', -, h⟩ := bind_eq_some_iff.mp h
  obtain ⟨d, hd, -⟩ := bind_eq_some_iff.mp h
  exact ⟨c', d, hd⟩

/-- A walk goes through a sequence whose members are linked by the steps. -/
theorem walk_of_links {c : ℕ → C} {i k : ℕ}
    (h : ∀ j, i ≤ j → j < i + k → step j (c j) = some (c (j + 1))) :
    walk step i k (c i) = some (c (i + k)) := by
  induction k generalizing i with
  | zero => rfl
  | succ k ih =>
    rw [walk_succ, h i (Nat.le_refl i) (by omega), bind_some,
      ih fun j hj hlt => h j (by omega) (by omega), Nat.add_right_comm, Nat.add_assoc]

/-- Two walks that end together have started together, or they meet at some position. -/
theorem walk_meet {i k : ℕ} {c d e : C} (hc : walk step i k c = some e)
    (hd : walk step i k d = some e) :
    c = d ∨ ∃ j < k, ∃ c' d', walk step i j c = some c' ∧ walk step i j d = some d' ∧ c' ≠ d' ∧
      ∃ f, step (i + j) c' = some f ∧ step (i + j) d' = some f := by
  induction k generalizing i c d with
  | zero =>
    rw [walk_zero] at hc hd
    exact .inl (some.inj (hc.trans hd.symm))
  | succ k ih =>
    obtain ⟨c₁, hc₁, hc⟩ := bind_eq_some_iff.mp hc
    obtain ⟨d₁, hd₁, hd⟩ := bind_eq_some_iff.mp hd
    by_cases hcd : c = d
    · exact .inl hcd
    · refine .inr ?_
      rcases ih hc hd with heq | ⟨j, hj, c', d', hc', hd', hne, f, hcf, hdf⟩
      · exact ⟨0, by omega, c, d, rfl, rfl, hcd, c₁, hc₁, heq ▸ hd₁⟩
      · refine ⟨j + 1, by omega, c', d', ?_, ?_, hne, f, ?_, ?_⟩
        · rw [walk_succ, hc₁, bind_some, hc']
        · rw [walk_succ, hd₁, bind_some, hd']
        · rwa [Nat.add_right_comm] at hcf
        · rwa [Nat.add_right_comm] at hdf

end Walks

section Filling

variable {N pi : ℕ} {first : C} {blank c : ℕ → C}

/-- The positions of the filling before turn `m` are linked, and are not written again. -/
theorem fill_turns {m : ℕ} (hm : m < N)
    (h : (List.range' 1 m).foldlM (fillNext step N pi)
      (Function.update blank ((pi + 1) % N) first) = some c) :
    c ((pi + 1) % N) = first ∧ ∀ k, 1 ≤ k → k ≤ m →
      step ((pi + k) % N) (c ((pi + k) % N)) = some (c ((pi + k + 1) % N)) := by
  induction m generalizing c with
  | zero =>
    obtain rfl : Function.update blank ((pi + 1) % N) first = c := some.inj h
    refine ⟨update_self .., fun k hk hk' => ?_⟩
    omega
  | succ m ih =>
    rw [range'_1_concat, foldlM_append] at h
    obtain ⟨b, hb, h⟩ := bind_eq_some_iff.mp h
    obtain ⟨hfirst, hlinks⟩ := ih (by omega) hb
    simp only [foldlM_cons, foldlM_nil, fillNext] at h
    obtain ⟨c', h, hc'⟩ := bind_eq_some_iff.mp h
    obtain ⟨next, hnext, rfl⟩ := map_eq_some_iff.mp h
    obtain rfl := some.inj hc'
    have hturn : (1 + m) = m + 1 := Nat.add_comm 1 m
    rw [hturn] at hnext ⊢
    have hwrite : ((pi + (m + 1)) % N + 1) % N = (pi + (m + 1) + 1) % N := Nat.mod_add_mod ..
    rw [hwrite]
    -- the write is at most N - 1 positions ahead of everything read so far
    have hother : ∀ k, 1 ≤ k → k ≤ m + 1 → (pi + k) % N ≠ (pi + (m + 1) + 1) % N := by
      intro k hk hkm heq
      have hsub : (pi + (m + 1) + 1 - (pi + k)) % N = 0 := Nat.sub_mod_eq_zero_of_mod_eq heq.symm
      rw [Nat.mod_eq_of_lt (by omega)] at hsub
      omega
    refine ⟨?_, fun k hk hkm => ?_⟩
    · rw [update_of_ne (hother 1 (Nat.le_refl 1) (by omega)), hfirst]
    · rw [update_of_ne (hother k hk hkm)]
      by_cases hlast : k = m + 1
      · subst hlast
        rw [update_self]
        exact hnext
      · rw [hlinks k hk (by omega), Nat.add_assoc pi k 1,
          update_of_ne (hother (k + 1) (by omega) (by omega))]

variable (hpi : pi < N)
include hpi

theorem exists_turn (hi : i < N) (hne : i ≠ pi) : ∃ k, 1 ≤ k ∧ k ≤ N - 1 ∧ (pi + k) % N = i := by
  by_cases hlt : pi < i
  · exact ⟨i - pi, by omega, by omega, by rw [Nat.mod_eq_of_lt (by omega)]; omega⟩
  · refine ⟨N + i - pi, by omega, by omega, ?_⟩
    have hsum : pi + (N + i - pi) = i + N := by omega
    rw [hsum, Nat.add_mod_right, Nat.mod_eq_of_lt hi]

theorem turn_ne {k : ℕ} (hk : 1 ≤ k) (hkN : k < N) : (pi + k) % N ≠ pi := by
  by_cases hlt : pi + k < N
  · rw [Nat.mod_eq_of_lt hlt]
    omega
  · have hsum : pi + k = (pi + k - N) + N := by omega
    rw [hsum, Nat.add_mod_right, Nat.mod_eq_of_lt (by omega)]
    omega

/-- The step at the position left out plays no part in the filling. -/
theorem fillFrom_congr (h : ∀ i < N, i ≠ pi → step i = step' i) :
    fillFrom step N pi first blank = fillFrom step' N pi first blank := by
  have hturns : ∀ m < N, ∀ c : ℕ → C, (List.range' 1 m).foldlM (fillNext step N pi) c =
      (List.range' 1 m).foldlM (fillNext step' N pi) c := by
    intro m hm c
    induction m with
    | zero => rfl
    | succ m ih =>
      rw [range'_1_concat, foldlM_append, foldlM_append, ih (by omega)]
      refine bind_congr fun b _ => ?_
      have hstep := h ((pi + (1 + m)) % N) (Nat.mod_lt _ (by omega))
        (turn_ne hpi (by omega) (by omega))
      simp only [foldlM_cons, foldlM_nil, fillNext, hstep]
  exact hturns (N - 1) (by omega) _

/-- The values that are filled in are linked by the steps at all positions but one. -/
theorem fillFrom_links (h : fillFrom step N pi first blank = some c) :
    c ((pi + 1) % N) = first ∧
      ∀ i < N, i ≠ pi → step i (c i) = some (c ((i + 1) % N)) := by
  obtain ⟨hfirst, hlinks⟩ := fill_turns (by omega) h
  refine ⟨hfirst, fun i hi hne => ?_⟩
  obtain ⟨k, hk, hkN, rfl⟩ := exists_turn hpi hi hne
  rw [hlinks k hk hkN, Nat.mod_add_mod]

/-- Every value is the first or has been stepped to. -/
theorem fillFrom_reached (h : fillFrom step N pi first blank = some c) (hi : i < N) :
    c i = first ∨ ∃ j < N, step j (c j) = some (c i) := by
  obtain ⟨hfirst, hlinks⟩ := fillFrom_links hpi h
  have hprev : ((i + (N - 1)) % N + 1) % N = i := by
    have hsum : i + (N - 1) + 1 = i + N := by omega
    rw [Nat.mod_add_mod, hsum, Nat.add_mod_right, Nat.mod_eq_of_lt hi]
  by_cases heq : (i + (N - 1)) % N = pi
  · rw [heq] at hprev
    exact .inl (hprev ▸ hfirst)
  · have hlt : (i + (N - 1)) % N < N := Nat.mod_lt _ (by omega)
    have hlink := hlinks _ hlt heq
    rw [hprev] at hlink
    exact .inr ⟨_, hlt, hlink⟩

/-- The value at a position, with the first once more behind the last. -/
theorem links_unrolled (h : fillFrom step N pi first blank = some c)
    (hsame : ∀ i < N, i ≠ pi → step' i = step i) (hi : i < N) (hne : i ≠ pi) :
    step' i (c (i % N)) = some (c ((i + 1) % N)) := by
  rw [hsame i hi hne, Nat.mod_eq_of_lt hi]
  exact (fillFrom_links hpi h).2 i hi hne

/-- Up to the position left out, the walk from 0 goes through the values that are filled in. -/
theorem walk_to (h : fillFrom step N pi first blank = some c)
    (hsame : ∀ i < N, i ≠ pi → step' i = step i) : walk step' 0 pi (c 0) = some (c pi) := by
  have hwalk := @walk_of_links C step' (fun i => c (i % N)) 0 pi
    fun j _ hj => links_unrolled hpi h hsame (by omega) (by omega)
  simp only [Nat.zero_mod, Nat.zero_add, Nat.mod_eq_of_lt hpi] at hwalk
  exact hwalk

/-- Behind the position left out, the walk goes on to the value at 0. -/
theorem walk_from (h : fillFrom step N pi first blank = some c)
    (hsame : ∀ i < N, i ≠ pi → step' i = step i) :
    walk step' (pi + 1) (N - (pi + 1)) first = some (c 0) := by
  have hwalk := @walk_of_links C step' (fun i => c (i % N)) (pi + 1) (N - (pi + 1))
    fun j hj hlt => links_unrolled hpi h hsame (by omega) (by omega)
  have hend : pi + 1 + (N - (pi + 1)) = N := by omega
  simp only [hend, Nat.mod_self, (fillFrom_links hpi h).1] at hwalk
  exact hwalk

theorem walk_around (h : fillFrom step N pi first blank = some c)
    (hsame : ∀ i < N, i ≠ pi → step' i = step i) :
    walk step' 0 N (c 0) = (step' pi (c pi)).bind (walk step' (pi + 1) (N - (pi + 1))) := by
  have hN : N = pi + (N - (pi + 1) + 1) := by omega
  conv_lhs => rw [hN]
  rw [walk_add, walk_to hpi h hsame, bind_some, walk_succ, Nat.zero_add]

/-- With a last step that leads to the first value, the walk from 0 closes. -/
theorem walk_closes (h : fillFrom step N pi first blank = some c)
    (hsame : ∀ i < N, i ≠ pi → step' i = step i) (hclose : step' pi (c pi) = some first) :
    walk step' 0 N (c 0) = some (c 0) := by
  rw [walk_around hpi h hsame, hclose, bind_some, walk_from hpi h hsame]

/-- If the walk from 0 closes, the last step leads to the first value, or behind it the walk meets
the one from the first value. -/
theorem closes_or_meets (h : fillFrom step N pi first blank = some c)
    (hsame : ∀ i < N, i ≠ pi → step' i = step i) (hclosed : walk step' 0 N (c 0) = some (c 0)) :
    step' pi (c pi) = some first ∨ ∃ i, pi < i ∧ i < N ∧ ∃ c' d',
      walk step' (pi + 1) (i - (pi + 1)) first = some c' ∧ walk step' 0 i (c 0) = some d' ∧
        c' ≠ d' ∧ ∃ f, step' i c' = some f ∧ step' i d' = some f := by
  rw [walk_around hpi h hsame] at hclosed
  obtain ⟨d, hd, hrest⟩ := bind_eq_some_iff.mp hclosed
  rcases walk_meet (walk_from hpi h hsame) hrest with heq | ⟨j, hj, c', d', hc', hd', hne, hmeet⟩
  · exact .inl (heq ▸ hd)
  · have hcount : pi + 1 + j - (pi + 1) = j := by omega
    have hall : pi + 1 + j = pi + (j + 1) := by omega
    refine .inr ⟨pi + 1 + j, by omega, by omega, c', d', hcount.symm ▸ hc', ?_, hne, hmeet⟩
    rw [hall, walk_add, walk_to hpi h hsame, bind_some, Nat.zero_add, walk_succ, hd,
      bind_some, hd']

end Filling

end Pricoin.RingWalks
