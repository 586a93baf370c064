import Pricoin.SumZero

/-!
The blinding factor of the last output. The wallet chooses all the others and takes
for the last one what makes the two sides equal, so that the commitments balance when
the values do. Blinding factors are big-endian bytes below the order of the group.
-/
namespace Pricoin.BalancingBlinds

open ByteStreams Transactions ValueConservation SumZero List Option

variable {E : Type} [AddCommGroup E] [Module (ZMod curveOrder) E] [DecidableEq E]

section Code

abbrev BlindingFactor := Bytes 32

/-- `secp256k1_scalar_set_b32`, with the overflow as a failure. -/
def scalarOfBytes (blind : BlindingFactor) : Option (ZMod curveOrder) :=
  if leValue blind.toList.reverse < curveOrder then some (leValue blind.toList.reverse : ℕ)
  else none

theorem length_reverse_leBytes (a : ZMod curveOrder) :
    ((leBytes 32 a.val).reverse).length = 32 := by
  rw [length_reverse, leBytes_length]

/-- `secp256k1_scalar_get_b32`. -/
def scalarBytes (a : ZMod curveOrder) : BlindingFactor :=
  ⟨(leBytes 32 a.val).reverse, length_reverse_leBytes a⟩

/-- A point other than the one at infinity is read back from its commitment. -/
structure CommitmentCurve (E : Type) [AddCommGroup E] [Module (ZMod curveOrder) E]
    extends TallyCurve E where
  serializeCommitment : E → Commitment
  parse_serialize : ∀ p, p ≠ 0 → parseCommitment (serializeCommitment p) = some p

variable (curve : CommitmentCurve E)

/-- `Commitment::Create`. -/
def createCommitment (value : UInt64) (blind : BlindingFactor) : Option Commitment := do
  let sec ← scalarOfBytes blind
  let r ← pedersenCommit curve.toTallyCurve sec value
  some (curve.serializeCommitment r)

/-- The loop of `secp256k1_pedersen_blind_sum` from the index `i` on. -/
def blindSumFrom (npositive : ℕ) :
    ℕ → ZMod curveOrder → List BlindingFactor → Option (ZMod curveOrder)
  | _, acc, [] => some acc
  | i, acc, blind :: blinds => do
    let x ← scalarOfBytes blind
    blindSumFrom npositive (i + 1) (acc + if npositive ≤ i then -x else x) blinds

def pedersenBlindSum (blinds : List BlindingFactor) (npositive : ℕ) : Option BlindingFactor :=
  (blindSumFrom npositive 0 0 blinds).map scalarBytes

def balancingBlind (inBlinds outBlindsExceptLast : List BlindingFactor) : Option BlindingFactor :=
  if inBlinds.length + outBlindsExceptLast.length = 0 then some (.replicate 32 0)
  else pedersenBlindSum (inBlinds ++ outBlindsExceptLast) inBlinds.length

end Code

section Scalars

theorem scalarOfBytes_scalarBytes (a : ZMod curveOrder) :
    scalarOfBytes (scalarBytes a) = some a := by
  have hlt : a.val < curveOrder := a.val_lt
  have hvalue : leValue (scalarBytes a).toList.reverse = a.val := by
    change leValue (leBytes 32 a.val).reverse.reverse = a.val
    rw [reverse_reverse, leValue_leBytes, Nat.mod_eq_of_lt (hlt.trans (by decide))]
  rw [scalarOfBytes, hvalue, if_pos hlt, ZMod.natCast_zmod_val]

theorem scalarOfBytes_zero : scalarOfBytes (.replicate 32 0) = some 0 := by
  have hvalue : leValue (List.Vector.replicate 32 (0 : UInt8)).toList.reverse = 0 := by decide
  rw [scalarOfBytes, hvalue, if_pos (by decide), Nat.cast_zero]

/-- The inputs come first and are added. -/
theorem blindSumFrom_positive {npositive : ℕ} (blinds rest : List BlindingFactor) (i : ℕ)
    (acc : ZMod curveOrder) (hi : i + blinds.length ≤ npositive) :
    blindSumFrom npositive i acc (blinds ++ rest) =
      (blinds.mapM scalarOfBytes).bind fun xs =>
        blindSumFrom npositive (i + blinds.length) (acc + xs.sum) rest := by
  induction blinds generalizing i acc with
  | nil => simp
  | cons blind blinds ih =>
    rw [length_cons] at hi
    have hpos : ¬ npositive ≤ i := by omega
    rw [cons_append, blindSumFrom, mapM_cons, length_cons]
    cases scalarOfBytes blind with
    | none => rfl
    | some x =>
      simp only [bind_eq_bind, Option.bind_some, if_neg hpos, bind_assoc]
      rw [ih (i + 1) (acc + x) (by omega)]
      simp only [List.sum_cons, add_assoc, Option.pure_def, Option.bind_some,
        Nat.add_comm 1]

/-- The outputs follow and are taken away. -/
theorem blindSumFrom_negative {npositive : ℕ} (blinds : List BlindingFactor) (i : ℕ)
    (acc : ZMod curveOrder) (hi : npositive ≤ i) :
    blindSumFrom npositive i acc blinds =
      (blinds.mapM scalarOfBytes).map fun xs => acc - xs.sum := by
  induction blinds generalizing i acc with
  | nil => simp [blindSumFrom]
  | cons blind blinds ih =>
    rw [blindSumFrom, mapM_cons]
    cases scalarOfBytes blind with
    | none => rfl
    | some x =>
      simp only [bind_eq_bind, Option.bind_some, if_pos hi]
      rw [ih (i + 1) (acc + -x) (by omega)]
      cases blinds.mapM scalarOfBytes with
      | none => rfl
      | some xs =>
        simp only [Option.map_some, Option.bind_some, Option.pure_def, List.sum_cons]
        congr 1
        abel

/-- The balancing blind is the difference of the two sums, with or without blinds on a side. -/
theorem balancingBlind_spec {ins outs : List BlindingFactor} {blind : BlindingFactor}
    (h : balancingBlind ins outs = some blind) :
    ∃ xs ys, ins.mapM scalarOfBytes = some xs ∧ outs.mapM scalarOfBytes = some ys ∧
      scalarOfBytes blind = some (xs.sum - ys.sum) := by
  unfold balancingBlind at h
  split at h
  · rename_i hempty
    obtain ⟨hins, houts⟩ := Nat.add_eq_zero_iff.mp hempty
    rw [eq_nil_of_length_eq_zero hins, eq_nil_of_length_eq_zero houts,
      ← some.inj h]
    exact ⟨[], [], rfl, rfl, by rw [scalarOfBytes_zero, sum_nil, sub_zero]⟩
  · obtain ⟨sum, hsum, rfl⟩ := map_eq_some_iff.mp h
    rw [blindSumFrom_positive ins outs 0 0 (by omega)] at hsum
    obtain ⟨xs, hxs, hsum⟩ := bind_eq_some_iff.mp hsum
    rw [blindSumFrom_negative _ _ _ (by omega)] at hsum
    obtain ⟨ys, hys, hsum⟩ := map_eq_some_iff.mp hsum
    refine ⟨xs, ys, hxs, hys, ?_⟩
    rw [scalarOfBytes_scalarBytes, ← hsum, zero_add]

end Scalars

section Balance

variable {curve : CommitmentCurve E}

abbrev Opening := UInt64 × BlindingFactor

def create (curve : CommitmentCurve E) (o : Opening) : Option Commitment :=
  createCommitment curve o.1 o.2

/-- The values of a list of openings, as integers. -/
def total (openings : List Opening) : ℕ := (openings.map fun o => o.1.toNat).sum

theorem create_eq_some {o : Opening} {c : Commitment}
    (h : create curve o = some c) :
    ∃ x, scalarOfBytes o.2 = some x ∧
      curve.parseCommitment c = some (x • curve.G + (o.1.toNat : ZMod curveOrder) • curve.H) := by
  obtain ⟨x, hx, h⟩ := bind_eq_some_iff.mp h
  obtain ⟨r, hr, h⟩ := bind_eq_some_iff.mp h
  rw [pedersenCommit] at hr
  split at hr
  · contradiction
  · rename_i hne
    refine ⟨x, hx, ?_⟩
    rw [← some.inj h, ← some.inj hr]
    exact curve.parse_serialize _ hne

/-- The commitments to a list of openings add up to the commitment to the sums. -/
theorem sum_of_create {openings : List Opening} {commits : List Commitment}
    (h : openings.mapM (create curve) = some commits) :
    ∃ xs ps, (openings.map Prod.snd).mapM scalarOfBytes = some xs ∧
      commits.mapM curve.parseCommitment = some ps ∧
      ps.sum = xs.sum • curve.G + (total openings : ZMod curveOrder) • curve.H := by
  induction openings generalizing commits with
  | nil =>
    obtain rfl := some.inj h
    exact ⟨[], [], rfl, rfl, by simp [total]⟩
  | cons o openings ih =>
    rw [mapM_cons] at h
    obtain ⟨c, hc, h⟩ := bind_eq_some_iff.mp h
    obtain ⟨cs, hcs, h⟩ := bind_eq_some_iff.mp h
    obtain rfl := some.inj h
    obtain ⟨x, hx, hp⟩ := create_eq_some hc
    obtain ⟨xs, ps, hxs, hps, hsum⟩ := ih hcs
    refine ⟨x :: xs, (x • curve.G + (o.1.toNat : ZMod curveOrder) • curve.H) :: ps, ?_, ?_, ?_⟩
    · rw [map_cons, mapM_cons, hx, hxs]
      rfl
    · rw [mapM_cons, hp, hps]
      rfl
    · have htotal : total (o :: openings) = o.1.toNat + total openings := List.sum_cons
      rw [List.sum_cons, hsum, List.sum_cons, htotal, Nat.cast_add, add_smul, add_smul]
      abel

/-- The outputs in front of the open one and those after it. -/
theorem mapM_snd_append {before after : List Opening} {o : Opening} {xs : List (ZMod curveOrder)}
    (h : ((before ++ o :: after).map Prod.snd).mapM scalarOfBytes = some xs) :
    ∃ x ys, scalarOfBytes o.2 = some x ∧
      ((before ++ after).map Prod.snd).mapM scalarOfBytes = some ys ∧ xs.sum = ys.sum + x := by
  rw [map_append, map_cons, mapM_append] at h
  obtain ⟨front, hfront, h⟩ := bind_eq_some_iff.mp h
  obtain ⟨back, hback, h⟩ := bind_eq_some_iff.mp h
  rw [mapM_cons] at hback
  obtain ⟨x, hx, hback⟩ := bind_eq_some_iff.mp hback
  obtain ⟨rest, hrest, hback⟩ := bind_eq_some_iff.mp hback
  obtain rfl := some.inj h
  obtain rfl := some.inj hback
  refine ⟨x, front ++ rest, hx, ?_, ?_⟩
  · rw [map_append, mapM_append, hfront, hrest]
    rfl
  · rw [sum_append, sum_append, List.sum_cons]
    abel

/-- Commitments whose blinding factors and values add up to the same on both sides balance. -/
theorem verifySumZero_of_openings {ins outs : List Opening} {fee : UInt64} (hfee : 1 ≤ fee)
    (hvalues : total ins = total outs + fee.toNat) {inCommits outCommits : List Commitment}
    (hins : ins.mapM (create curve) = some inCommits)
    (houts : outs.mapM (create curve) = some outCommits) {xs ys : List (ZMod curveOrder)}
    (hxs : (ins.map Prod.snd).mapM scalarOfBytes = some xs)
    (hys : (outs.map Prod.snd).mapM scalarOfBytes = some ys) (hblinds : ys.sum = xs.sum) :
    verifySumZero curve.toTallyCurve inCommits outCommits fee = true := by
  obtain ⟨xs', ps, hxs', hps, hsumIn⟩ := sum_of_create hins
  obtain ⟨ys', qs, hys', hqs, hsumOut⟩ := sum_of_create houts
  obtain rfl := some.inj (hxs.symm.trans hxs')
  obtain rfl := some.inj (hys.symm.trans hys')
  refine (verifySumZero_iff fee hps hqs).mpr ⟨?_, ?_⟩
  · rintro rfl
    exact absurd hfee (by decide)
  · rw [hsumIn, hsumOut, hblinds, hvalues, Nat.cast_add, add_smul]
    abel

/-- Commitments whose values balance with the fee are accepted when the balancing blind is put in
the open place among the outputs. -/
theorem balancing_blind_balances (ins before after : List Opening) (value fee : UInt64)
    (hfee : 1 ≤ fee)
    (hvalues : total ins = total before + value.toNat + total after + fee.toNat)
    {blind : BlindingFactor}
    (hblind : balancingBlind (ins.map Prod.snd) ((before ++ after).map Prod.snd) = some blind)
    {inCommits outCommits : List Commitment}
    (hins : ins.mapM (create curve) = some inCommits)
    (houts : (before ++ (value, blind) :: after).mapM (create curve) = some outCommits) :
    verifySumZero curve.toTallyCurve inCommits outCommits fee = true := by
  obtain ⟨xs, ps, hxs, -⟩ := sum_of_create hins
  obtain ⟨ys, qs, hys, -⟩ := sum_of_create houts
  obtain ⟨xs', zs, hxs', hzs, hbalance⟩ := balancingBlind_spec hblind
  obtain ⟨x, zs', hx, hzs', hopen⟩ := mapM_snd_append hys
  obtain rfl := some.inj (hxs.symm.trans hxs')
  obtain rfl := some.inj (hzs.symm.trans hzs')
  obtain rfl := some.inj (hbalance.symm.trans hx)
  have hblinds : ys.sum = xs.sum := by
    rw [hopen]
    abel
  have htotal : total ins = total (before ++ (value, blind) :: after) + fee.toNat := by
    rw [hvalues]
    simp only [total, map_append, map_cons, sum_append, List.sum_cons]
    omega
  exact verifySumZero_of_openings hfee htotal hins houts hxs hys hblinds

end Balance

section Sample

/-- The scalars themselves, with both generators one. -/
def scalarCurve : CommitmentCurve (ZMod curveOrder) where
  G := 1
  H := 1
  parseCommitment c := some (leValue c.toList : ℕ)
  eq_zero_of_smul a h := by simpa using h
  serializeCommitment p := leBlock 33 p.val
  parse_serialize p _ := by
    rw [leValue_leBlock (p.val_lt.trans (by decide)), ZMod.natCast_zmod_val]

def sampleBlind (b : UInt8) : BlindingFactor := ⟨List.replicate 31 0 ++ [b], rfl⟩

/-- Five with the blind seven goes to one with the blind two, a fee of one and the rest. -/
theorem balancing_blind_balances_sample :
    verifySumZero scalarCurve.toTallyCurve [leBlock 33 12] [leBlock 33 3, leBlock 33 8] 1 =
      true :=
  balancing_blind_balances [(5, sampleBlind 7)] [(1, sampleBlind 2)] [] 3 1 (by decide)
    (by decide)
    (by decide +kernel : balancingBlind [sampleBlind 7] [sampleBlind 2] = some (sampleBlind 5))
    (by decide +kernel) (by decide +kernel)

end Sample

end Pricoin.BalancingBlinds
