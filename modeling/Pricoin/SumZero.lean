import Pricoin.ValueConservation

/-!
The tally of a confidential transaction. The fee enters it as one more output
commitment with the zero blinding factor, and a commitment at infinity does not
exist. So the tally decides the balance of the commitments for every fee but zero,
and for the fee zero it refuses everything.
-/
namespace Pricoin.SumZero

open Transactions Coins TxChecks ValueConservation List Option

variable {E : Type} [AddCommGroup E] [DecidableEq E]

section Code

/-- The generators are multiples of each other or not. Only the order of the first is used. -/
structure TallyCurve (E : Type) [AddCommGroup E] [Module (ZMod curveOrder) E] where
  G : E
  H : E
  parseCommitment : Commitment → Option E
  eq_zero_of_smul : ∀ a : ZMod curveOrder, a • H = 0 → a = 0

variable [Module (ZMod curveOrder) E]
variable (curve : TallyCurve E)

/-- `secp256k1_pedersen_commit`. -/
def pedersenCommit (blind : ZMod curveOrder) (value : UInt64) : Option E :=
  let r := blind • curve.G + (value.toNat : ZMod curveOrder) • curve.H
  if r = 0 then none else some r

/-- `secp256k1_pedersen_verify_tally`. -/
def pedersenVerifyTally (commits ncommits : List E) : Bool :=
  commits.foldl (· + ·) (-ncommits.foldl (· + ·) 0) = 0

def verifySumZero (inCommits outCommits : List Commitment) (transparentFee : UInt64) : Bool :=
  (do
    let parsedIn ← inCommits.mapM curve.parseCommitment
    let parsedOut ← outCommits.mapM curve.parseCommitment
    let fee ← pedersenCommit curve 0 transparentFee
    some (pedersenVerifyTally parsedIn (parsedOut ++ [fee]))).getD false

end Code

section Tally

omit [DecidableEq E] in
theorem foldl_add (acc : E) (ps : List E) : ps.foldl (· + ·) acc = acc + ps.sum := by
  induction ps generalizing acc with
  | nil => simp
  | cons p ps ih => rw [foldl_cons, ih, sum_cons, add_assoc]

theorem pedersenVerifyTally_iff (commits ncommits : List E) :
    pedersenVerifyTally commits ncommits = true ↔ commits.sum - ncommits.sum = 0 := by
  rw [pedersenVerifyTally, decide_eq_true_eq, foldl_add, foldl_add, zero_add, neg_add_eq_sub]

variable [Module (ZMod curveOrder) E] {curve : TallyCurve E}

/-- Every fee but zero has a commitment. -/
theorem pedersenCommit_fee (fee : UInt64) :
    pedersenCommit curve 0 fee =
      if fee = 0 then none else some ((fee.toNat : ZMod curveOrder) • curve.H) := by
  unfold pedersenCommit
  rw [zero_smul, zero_add]
  by_cases hfee : fee = 0
  · rw [if_pos hfee, if_pos (by rw [hfee]; simp)]
  · rw [if_neg hfee, if_neg]
    intro hzero
    have hcast := curve.eq_zero_of_smul _ hzero
    rw [ZMod.natCast_eq_zero_iff] at hcast
    have hpos : 0 < fee.toNat := Nat.pos_of_ne_zero fun h => hfee (UInt64.toNat_inj.mp h)
    have hlt : fee.toNat < curveOrder := lt_trans fee.toNat_lt (by decide)
    exact absurd (Nat.le_of_dvd hpos hcast) (Nat.not_le.mpr hlt)

/-- The balance is decided for every fee but zero, which is always refused. -/
theorem verifySumZero_iff {ins outs : List Commitment} {ps qs : List E} (fee : UInt64)
    (hins : ins.mapM curve.parseCommitment = some ps)
    (houts : outs.mapM curve.parseCommitment = some qs) :
    verifySumZero curve ins outs fee = true ↔
      fee ≠ 0 ∧ ps.sum - qs.sum - (fee.toNat : ZMod curveOrder) • curve.H = 0 := by
  unfold verifySumZero
  rw [hins, houts, pedersenCommit_fee]
  by_cases hfee : fee = 0
  · simp [hfee]
  · rw [if_neg hfee, and_iff_right hfee]
    simp only [bind_eq_bind, bind_some, getD_some, pedersenVerifyTally_iff,
      sum_append, sum_singleton, sub_add_eq_sub_sub]

/-- The answer is the balance unless the fee is zero and the commitments balance. -/
theorem verifySumZero_exact_iff {ins outs : List Commitment} {ps qs : List E} (fee : UInt64)
    (hins : ins.mapM curve.parseCommitment = some ps)
    (houts : outs.mapM curve.parseCommitment = some qs) :
    (verifySumZero curve ins outs fee = true ↔
      ps.sum - qs.sum - (fee.toNat : ZMod curveOrder) • curve.H = 0) ↔
    fee ≠ 0 ∨ ps.sum ≠ qs.sum := by
  rw [verifySumZero_iff fee hins houts]
  by_cases hfee : fee = 0
  · subst hfee
    simp [sub_eq_zero]
  · simp [hfee]

end Tally

section Consensus

variable [Module (ZMod curveOrder) E]

def ofCurve (curve : Curve E) : TallyCurve E where
  G := curve.G
  H := curve.H
  parseCommitment := curve.parseCommitment
  eq_zero_of_smul a h := (curve.independent a 0 (by rw [h, zero_smul, add_zero])).1

/-- The tally of the consensus rules is this one. -/
theorem curve_verifySumZero (curve : Curve E) (ins outs : List Commitment) (fee : UInt64) :
    curve.verifySumZero ins outs fee.toNat = verifySumZero (ofCurve curve) ins outs fee := by
  have hcommit : curve.pedersenCommit fee.toNat 0 = pedersenCommit (ofCurve curve) 0 fee := by
    unfold Curve.pedersenCommit pedersenCommit Pedersen.Generators.commit
    rw [add_comm]
    rfl
  have hparse : (ofCurve curve).parseCommitment = curve.parseCommitment := rfl
  unfold Curve.verifySumZero verifySumZero
  rw [hcommit, hparse]
  cases ins.mapM curve.parseCommitment with
  | none => rfl
  | some ps =>
    cases outs.mapM curve.parseCommitment with
    | none => rfl
    | some qs =>
      cases pedersenCommit (ofCurve curve) 0 fee with
      | none => rfl
      | some r =>
        refine Bool.eq_iff_iff.mpr (Iff.trans decide_eq_true_iff ?_)
        rw [← sub_eq_zero, ← pedersenVerifyTally_iff]
        rfl

end Consensus

section Sample

/-- A commitment on either side balances, and is refused at the fee zero. -/
theorem verifySumZero_without_fee :
    verifySumZero (ofCurve sampleCurve) [.replicate 33 1] [.replicate 33 1]
      0 = false ∧
    ∃ p, sampleCurve.parseCommitment (.replicate 33 1) = some p ∧
      [p].sum - [p].sum - ((0 : UInt64).toNat : ZMod curveOrder) • sampleCurve.H = 0 := by
  refine ⟨?_, _, rfl, ?_⟩
  · simp [verifySumZero, pedersenCommit_fee]
  · simp

theorem verifySumZero_exact_iff_one :
    verifySumZero (ofCurve sampleCurve) [⟨2 :: 1 :: List.replicate 31 0, rfl⟩]
      [⟨1 :: 1 :: List.replicate 31 0, rfl⟩] 1 = true := by
  refine ((verifySumZero_exact_iff 1 rfl rfl).mpr (.inl (by decide))).mpr ?_
  refine Prod.ext ?_ ?_
  · change ((2 : ℕ) : ZMod curveOrder) + 0 - ((1 : ℕ) + 0) - (1 : ℕ) * 1 = 0
    norm_num
  · simp [ofCurve, sampleCurve]

end Sample

end Pricoin.SumZero
