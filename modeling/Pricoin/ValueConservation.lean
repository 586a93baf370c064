import Mathlib.Algebra.Module.Prod
import Pricoin.Pedersen
import Pricoin.RangeProven

/-!
Value conservation of confidential transactions. Commitments are points `v H + b G`
with independent generators. A direct input claims the commitment of its coin, and a
ring signature ties a pseudo commitment to the coin of one ring member. The tally
then balances the values of the coins that are spent with those of the outputs and
the fee, as integers: a transaction is too short for the sums to reach the order of
the group.
-/
namespace Pricoin.ValueConservation

open Checks Runs TaggedSets KeyImageFile KeyImageStore Transactions Coins TxChecks BlockConnection
open List Option
open UndoCodec ConnectDisconnect ActiveChain Mempool MempoolAccept MempoolAdmission Pedersen
open RangeProven

variable {vs : List ℕ} {c : Commitment} {tx : Transaction} {fee : ℤ}

/-- The order of the group. -/
def curveOrder : ℕ := 0xFFFFFFFFFFFFFFFFFFFFFFFFFFFFFFFEBAAEDCE6AF48A03BBFD25E8CD0364141

section Curve

variable (E : Type) [AddCommGroup E] [Module (ZMod curveOrder) E]

/-- The group with its two generators, and the encodings of its points. -/
structure Curve extends Generators curveOrder E where
  parseCommitment : Commitment → Option E
  serializeCommitment : E → Option Commitment
  parse_commitment : ∀ p c, serializeCommitment p = some c → parseCommitment c = some p
  parsePoint : Point → Option E
  serializePoint : E → Option Point
  parse_point : ∀ p b, serializePoint p = some b → parsePoint b = some p

end Curve

namespace Curve

variable {E : Type} [AddCommGroup E] [Module (ZMod curveOrder) E] [DecidableEq E] (curve : Curve E)

/-- `secp256k1_pedersen_commit`, which fails at infinity. -/
def pedersenCommit (value : ℕ) (blind : ZMod curveOrder) : Option E :=
  if curve.commit value blind = 0 then none else some (curve.commit value blind)

/-- `Commitment::Create`. -/
def create (value : ℕ) (blind : ZMod curveOrder) : Option Commitment :=
  (curve.pedersenCommit value blind).bind curve.serializeCommitment

/-- The difference as a public key. There is none at infinity. -/
def subtractCommitments (c₁ c₂ : Commitment) : Option Point := do
  let p₁ ← curve.parseCommitment c₁
  let p₂ ← curve.parseCommitment c₂
  if p₁ - p₂ = 0 then none else curve.serializePoint (p₁ - p₂)

/-- The fee is an output with the zero blinding factor. -/
def verifySumZero (inCommits outCommits : List Commitment) (transparentFee : ℕ) : Bool :=
  match inCommits.mapM curve.parseCommitment, outCommits.mapM curve.parseCommitment,
    curve.pedersenCommit transparentFee 0 with
  | some ins, some outs, some fee => ins.sum = (outs ++ [fee]).sum
  | _, _, _ => false

/-- The commitment can be parsed and commits to the number. -/
def CommitsTo (c : Commitment) (value : ℕ) : Prop :=
  ∃ p, curve.parseCommitment c = some p ∧ curve.Opens p value

/-- The commitment functions are those of the curve, an accepted range proof has an opening, and an
accepted ring signature knows the key and the commitment difference of a member. -/
structure Interprets (crypto : Crypto) : Prop where
  subtract : crypto.subtractCommitments = curve.subtractCommitments
  commit : ∀ value, crypto.commitTo value = curve.create value 0
  tally : crypto.verifySumZero = curve.verifySumZero
  range : ∀ c rangeproof script, crypto.verifyRangeProof c rangeproof script = true →
    ∃ value < 2 ^ 64, curve.CommitsTo c value
  ring : ∀ members sig msg, crypto.verifyMultiLayer members sig msg = true →
    ∃ m ∈ members, ∃ x z : ZMod curveOrder,
      curve.parsePoint m.1 = some (x • curve.G) ∧ curve.parsePoint m.2 = some (z • curve.G)

/-- The value of a coin, in the open or by its commitment. -/
def CoinValue (c : Coin) (value : ℕ) : Prop :=
  if c.fConfidential then value < 2 ^ 64 ∧ curve.CommitsTo c.commitment value
  else c.out.nValue = value

def OutputValue (o : CTOutput) (value : ℕ) : Prop :=
  value < 2 ^ 64 ∧ curve.CommitsTo o.commitment value

/-- The coin of a ring member whose key and commitment difference are known. -/
def SpendsRing (view : CoinsView) (ri : CTRingInput) (c : Coin) : Prop :=
  ∃ ref ∈ ri.ring, view ref.outPoint = some c ∧ ∃ x : ZMod curveOrder,
    curve.parsePoint c.oneTimePubkey = some (x • curve.G) ∧
    ∃ w, curve.subtractCommitments c.commitment ri.pseudoCommitment = some w ∧
      ∃ z : ZMod curveOrder, curve.parsePoint w = some (z • curve.G)

/-- The coins that a transaction spends, one for each input. -/
def Spends (view : CoinsView) (tx : Transaction) (spent : List Coin) : Prop :=
  if tx.ctBundle.inputCommitments ≠ [] then
    List.Forall₂ (fun o c => view o = some c) tx.prevouts spent
  else List.Forall₂ (curve.SpendsRing view) tx.ctBundle.ringInputs spent

/-- The coins and outputs have values, and whatever coins are spent, the values balance. -/
structure Conserves (view : CoinsView) (tx : Transaction) : Prop where
  spends : ∃ spent, curve.Spends view tx spent
  coins : ∀ spent, curve.Spends view tx spent → ∃ ins, List.Forall₂ curve.CoinValue spent ins
  outputs : ∃ outs, List.Forall₂ curve.OutputValue tx.ctBundle.outputs outs
  balance : ∀ spent ins outs, curve.Spends view tx spent →
    List.Forall₂ curve.CoinValue spent ins →
    List.Forall₂ curve.OutputValue tx.ctBundle.outputs outs →
    ins.sum = outs.sum + tx.ctBundle.transparentFee.toNat

end Curve

section Openings

variable {E : Type} [AddCommGroup E] [Module (ZMod curveOrder) E] {curve : Curve E}

theorem opens_of_mapM {cs : List Commitment} (h : List.Forall₂ curve.CommitsTo cs vs) {ps : List E}
    (hps : cs.mapM curve.parseCommitment = some ps) : List.Forall₂ curve.Opens ps vs := by
  induction h generalizing ps with
  | nil =>
    rw [List.mapM_nil, Option.pure_def, Option.some.injEq] at hps
    subst hps
    exact .nil
  | cons hhead _ ih =>
    simp only [List.mapM_cons, Option.bind_eq_bind, Option.bind_eq_some_iff, Option.pure_def,
      Option.some.injEq] at hps
    obtain ⟨p, hp, ps', hps', rfl⟩ := hps
    obtain ⟨p', hp', hopen⟩ := hhead
    rw [hp, Option.some.injEq] at hp'
    subst hp'
    exact .cons hopen (ih hps')

variable [DecidableEq E]

theorem commitsTo_of_create {value : ℕ} (h : curve.create value 0 = some c) :
    curve.CommitsTo c value := by
  obtain ⟨p, hp, hc⟩ := Option.bind_eq_some_iff.mp h
  unfold Curve.pedersenCommit at hp
  split at hp
  · contradiction
  · rw [← some.inj hp] at hc
    exact ⟨_, curve.parse_commitment _ _ hc, 0, rfl⟩

/-- A known difference carries the value of a coin over to the pseudo commitment. -/
theorem commitsTo_of_subtract {pseudo : Commitment} {w : Point} {z : ZMod curveOrder} {value : ℕ}
    (hsub : curve.subtractCommitments c pseudo = some w)
    (hw : curve.parsePoint w = some (z • curve.G)) (hc : curve.CommitsTo c value) :
    curve.CommitsTo pseudo value := by
  simp only [Curve.subtractCommitments, Option.bind_eq_bind, Option.bind_eq_some_iff] at hsub
  obtain ⟨p, hp, q, hq, hsub⟩ := hsub
  obtain ⟨p', hp', hopen⟩ := hc
  rw [hp, Option.some.injEq] at hp'
  subst hp'
  split at hsub
  · contradiction
  · rw [curve.parse_point _ _ hsub, Option.some.injEq] at hw
    exact ⟨q, hq, hopen.of_sub hw⟩

theorem sum_lt_of_small (h : ∀ v ∈ vs, v < 2 ^ 64) (hlen : vs.length ≤ 1000000) :
    vs.sum ≤ 1000000 * 2 ^ 64 := by
  have hsum := sum_le_card_nsmul vs (2 ^ 64) fun v hv => (h v hv).le
  rw [smul_eq_mul] at hsum
  exact hsum.trans (Nat.mul_le_mul_right _ hlen)

/-- An accepted tally balances the values. -/
theorem sum_eq_of_verifySumZero {ins outs : List Commitment} {ws : List ℕ} {fee : ℕ}
    (h : curve.verifySumZero ins outs fee = true) (hins : List.Forall₂ curve.CommitsTo ins vs)
    (houts : List.Forall₂ curve.CommitsTo outs ws) (hvs : ∀ v ∈ vs, v < 2 ^ 64)
    (hws : ∀ w ∈ ws, w < 2 ^ 64) (hfee : fee < 2 ^ 64) (hin : ins.length ≤ 1000000)
    (hout : outs.length ≤ 1000000) : vs.sum = ws.sum + fee := by
  unfold Curve.verifySumZero at h
  split at h
  · rename_i ps qs f hps hqs hf
    unfold Curve.pedersenCommit at hf
    split at hf
    · contradiction
    · rw [decide_eq_true_eq, sum_append, sum_singleton, ← some.inj hf] at h
      have hbound : 1000000 * 2 ^ 64 + 2 ^ 64 < curveOrder := by decide
      have hleft := sum_lt_of_small hvs (hins.length_eq ▸ hin)
      have hright := sum_lt_of_small hws (houts.length_eq ▸ hout)
      exact Generators.sum_eq_of_balance (opens_of_mapM hins hps) (opens_of_mapM houts hqs) h
        (by omega) (by omega)
  · contradiction

end Openings

section Verification

variable {E : Type} [AddCommGroup E] [Module (ZMod curveOrder) E] [DecidableEq E] {curve : Curve E}
variable {crypto : Crypto} {view : CoinsView} {committed : Finset Point} {nSpendHeight : ℕ}

/-- What an accepted transaction has passed besides its inputs. -/
theorem verifyConfidentialContextual_tally
    (h : verifyConfidentialContextual crypto tx view committed nSpendHeight = .ok fee) :
    (if tx.ctBundle.inputCommitments ≠ [] then verifyDirectInputs crypto tx view nSpendHeight
      else verifyRingInputs crypto tx view committed nSpendHeight) = .ok () ∧
    crypto.verifySumZero (effectiveInputs tx.ctBundle)
      (tx.ctBundle.outputs.map (fun o => o.commitment)) tx.ctBundle.transparentFee.toNat =
        true := by
  simp only [verifyConfidentialContextual, bind_ok, rejectIf_ok, Bool.not_eq_false] at h
  obtain ⟨-, -, -, -, -, -, -, -, _, hinputs, -, -, -, htally, -⟩ := h
  exact ⟨hinputs, htally⟩

/-- A direct input claims a commitment to the value of its coin. -/
theorem commitsTo_of_verifyDirectInput (hcurve : curve.Interprets crypto) {o : OutPoint}
    {claim : Commitment} (h : verifyDirectInput crypto view nSpendHeight (o, claim) = .ok ())
    {c : Coin} (hc : view o = some c) {value : ℕ} (hvalue : curve.CoinValue c value) :
    value < 2 ^ 64 ∧ curve.CommitsTo claim value := by
  simp only [verifyDirectInput, hc, bind_ok, rejectIf_ok, not_not] at h
  obtain ⟨-, -, expected, hexpected, rfl⟩ := h
  unfold expectedCommitment at hexpected
  unfold Curve.CoinValue at hvalue
  split at hexpected
  · rename_i hconf
    rw [if_pos hconf] at hvalue
    rwa [← Except.ok.inj hexpected]
  · rename_i hplain
    rw [if_neg hplain] at hvalue
    split at hexpected
    · rename_i hmoney
      split at hexpected
      · rename_i built hbuilt
        rw [hvalue, Int.toNat_natCast, hcurve.commit] at hbuilt
        rw [← Except.ok.inj hexpected]
        refine ⟨?_, commitsTo_of_create hbuilt⟩
        rw [hvalue] at hmoney
        simp only [MoneyRange, maxMoney, coin] at hmoney
        omega
      · contradiction
    · contradiction

theorem coin_of_verifyDirectInput {p : OutPoint × Commitment}
    (h : verifyDirectInput crypto view nSpendHeight p = .ok ()) : ∃ c, view p.1 = some c ∧
      (c.fConfidential = false → 0 ≤ c.out.nValue) := by
  unfold verifyDirectInput at h
  split at h
  · contradiction
  · rename_i c hc
    refine ⟨c, hc, fun hplain => ?_⟩
    simp only [bind_ok, expectedCommitment, hplain, Bool.false_eq_true, if_false] at h
    obtain ⟨-, -, expected, hexpected, -⟩ := h
    split at hexpected
    · rename_i hmoney
      exact hmoney.1
    · contradiction

/-- A ring member of an accepted input, with its entry in the signature check. -/
theorem ringMember_subtract {pseudo : Commitment} {ref : PrevoutRef} {m : Point × Point}
    (h : ringMember crypto view nSpendHeight pseudo ref = .ok m) :
    ∃ c, view ref.outPoint = some c ∧ m.1 = c.oneTimePubkey ∧
      crypto.subtractCommitments c.commitment pseudo = some m.2 := by
  unfold ringMember at h
  split at h
  · contradiction
  · rename_i c hc
    simp only [bind_ok, rejectIf_ok] at h
    obtain ⟨-, -, -, -, h⟩ := h
    split at h
    · contradiction
    · rename_i w hw
      rw [Except.ok.injEq] at h
      subst h
      exact ⟨c, hc, rfl, hw⟩

/-- An accepted ring input spends the coin of one of its members. -/
theorem exists_spendsRing (hcurve : curve.Interprets crypto) {msg : Uint256} {ri : CTRingInput}
    (h : verifyRingInput crypto view committed nSpendHeight msg ri = .ok ()) :
    ∃ c, curve.SpendsRing view ri c := by
  simp only [verifyRingInput, bind_ok, rejectIf_ok, mapM_ok, Bool.not_eq_false] at h
  obtain ⟨-, -, -, -, -, -, ms, hms, -, -, hsig⟩ := h
  obtain ⟨m, hm, x, z, hx, hz⟩ := hcurve.ring ms ri.sig msg hsig
  obtain ⟨ref, href, hmember⟩ := exists_right_of_mem hms.flip hm
  obtain ⟨c, hc, hkey, hsub⟩ := ringMember_subtract hmember
  rw [hcurve.subtract] at hsub
  exact ⟨c, ref, href, hc, x, hkey ▸ hx, m.2, hsub, z, hz⟩

/-- The pseudo commitment of a ring input commits to the value of the coin. -/
theorem commitsTo_of_spendsRing {msg : Uint256} {ri : CTRingInput}
    (h : verifyRingInput crypto view committed nSpendHeight msg ri = .ok ()) {c : Coin}
    (hspends : curve.SpendsRing view ri c) {value : ℕ} (hvalue : curve.CoinValue c value) :
    value < 2 ^ 64 ∧ curve.CommitsTo ri.pseudoCommitment value := by
  obtain ⟨ref, href, hc, x, -, w, hsub, z, hw⟩ := hspends
  obtain ⟨c', hc', hconf⟩ := (verifyRingInput_ok h).members ref href
  rw [hc, Option.some.injEq] at hc'
  subst hc'
  rw [Curve.CoinValue, if_pos hconf] at hvalue
  exact ⟨hvalue.1, commitsTo_of_subtract hsub hw hvalue.2⟩

/-- What holds of each input, its coin and the coin's value holds along the lists. -/
theorem forall₂_through {α β γ δ : Type} {R : α → β → Prop} {S : α → γ → Prop} {T : γ → δ → Prop}
    {U : β → δ → Prop} (h : ∀ a b c d, R a b → S a c → T c d → U b d) {as : List α} {bs : List β}
    {cs : List γ} {ds : List δ} (hab : List.Forall₂ R as bs) (hac : List.Forall₂ S as cs)
    (hcd : List.Forall₂ T cs ds) : List.Forall₂ U bs ds := by
  induction hab generalizing cs ds with
  | nil =>
    cases hac
    cases hcd
    exact .nil
  | cons hhead _ ih =>
    cases hac with
    | cons hcoin hac =>
      cases hcd with
      | cons hvalue hcd => exact .cons (h _ _ _ _ hhead hcoin hvalue) (ih hac hcd)

theorem verifyDirectInputs_forall₂ (h : verifyDirectInputs crypto tx view nSpendHeight = .ok ()) :
    List.Forall₂ (fun o claim => verifyDirectInput crypto view nSpendHeight (o, claim) = .ok ())
      tx.prevouts tx.ctBundle.inputCommitments := by
  simp only [verifyDirectInputs, bind_ok, rejectIf_ok, not_not, checkAll_ok] at h
  obtain ⟨-, hlen, hall⟩ := h
  refine forall₂_iff_zip.mpr ⟨?_, fun hmem => hall _ hmem⟩
  rw [Transaction.prevouts, length_map, hlen]

/-- The commitments on the input side commit to the values of the coins that are spent. -/
theorem commitsTo_effectiveInputs (hcurve : curve.Interprets crypto) {tx : Transaction}
    (h : (if tx.ctBundle.inputCommitments ≠ [] then verifyDirectInputs crypto tx view nSpendHeight
      else verifyRingInputs crypto tx view committed nSpendHeight) = .ok ())
    {spent : List Coin} {ins : List ℕ} (hspends : curve.Spends view tx spent)
    (hins : List.Forall₂ curve.CoinValue spent ins) :
    List.Forall₂ (fun claim value => value < 2 ^ 64 ∧ curve.CommitsTo claim value)
      (effectiveInputs tx.ctBundle) ins := by
  unfold Curve.Spends at hspends
  unfold effectiveInputs
  by_cases hdirect : tx.ctBundle.inputCommitments ≠ []
  · rw [if_pos hdirect] at h hspends ⊢
    refine forall₂_through (fun o claim c value hclaim hc hvalue => ?_)
      (verifyDirectInputs_forall₂ h) hspends hins
    exact commitsTo_of_verifyDirectInput hcurve hclaim hc hvalue
  · rw [if_neg hdirect] at h hspends ⊢
    rw [verifyRingInputs, checkAll_ok] at h
    have hself : List.Forall₂ (fun ri ri' => ri' = ri ∧ verifyRingInput crypto view committed
        nSpendHeight (crypto.computeRingMessage tx) ri = .ok ()) tx.ctBundle.ringInputs
        tx.ctBundle.ringInputs := forall₂_same.mpr fun ri hri => ⟨rfl, h ri hri⟩
    rw [forall₂_map_left_iff]
    refine forall₂_through (fun ri ri' c value hri hc hvalue => ?_) hself hspends hins
    rw [hri.1]
    exact commitsTo_of_spendsRing hri.2 hc hvalue

/-- Every input of an accepted transaction spends a coin. -/
theorem exists_spends (hcurve : curve.Interprets crypto) {tx : Transaction}
    (h : (if tx.ctBundle.inputCommitments ≠ [] then verifyDirectInputs crypto tx view nSpendHeight
      else verifyRingInputs crypto tx view committed nSpendHeight) = .ok ()) :
    ∃ spent, curve.Spends view tx spent := by
  unfold Curve.Spends
  by_cases hdirect : tx.ctBundle.inputCommitments ≠ []
  · rw [if_pos hdirect] at h
    have hcoins : ∀ o ∈ tx.prevouts, ∃ c, view o = some c := fun o ho => by
      obtain ⟨claim, -, hclaim⟩ := exists_right_of_mem (verifyDirectInputs_forall₂ h) ho
      obtain ⟨c, hc, -⟩ := coin_of_verifyDirectInput hclaim
      exact ⟨c, hc⟩
    obtain ⟨spent, -, hspent⟩ := exists_forall₂ (q := fun _ => True)
      (fun o ho => by simpa using hcoins o ho) (fun _ ho => ho)
    exact ⟨spent, by rwa [if_pos hdirect]⟩
  · rw [if_neg hdirect, verifyRingInputs, checkAll_ok] at h
    obtain ⟨spent, -, hspent⟩ := exists_forall₂ (q := fun _ => True)
      (fun ri hri => by simpa using exists_spendsRing hcurve (h ri hri)) (fun _ hri => hri)
    exact ⟨spent, by rwa [if_neg hdirect]⟩

/-- The coins that are spent are coins of the view, and those in the open have a value. -/
theorem spent_coins {tx : Transaction}
    (h : (if tx.ctBundle.inputCommitments ≠ [] then verifyDirectInputs crypto tx view nSpendHeight
      else verifyRingInputs crypto tx view committed nSpendHeight) = .ok ())
    {spent : List Coin} (hspends : curve.Spends view tx spent) {c : Coin} (hc : c ∈ spent) :
    (∃ o, view o = some c) ∧ (c.fConfidential = false → 0 ≤ c.out.nValue) := by
  unfold Curve.Spends at hspends
  by_cases hdirect : tx.ctBundle.inputCommitments ≠ []
  · rw [if_pos hdirect] at h hspends
    obtain ⟨o, ho, hco⟩ := exists_right_of_mem hspends.flip hc
    obtain ⟨claim, -, hclaim⟩ := exists_right_of_mem (verifyDirectInputs_forall₂ h) ho
    obtain ⟨c', hc', hvalue⟩ := coin_of_verifyDirectInput hclaim
    rw [hco, Option.some.injEq] at hc'
    exact ⟨⟨o, hco⟩, hc' ▸ hvalue⟩
  · rw [if_neg hdirect] at h hspends
    rw [verifyRingInputs, checkAll_ok] at h
    obtain ⟨ri, hri, ref, href, hco, -⟩ := exists_right_of_mem hspends.flip hc
    obtain ⟨c', hc', hconf⟩ := (verifyRingInput_ok (h ri hri)).members ref href
    rw [hco, Option.some.injEq] at hc'
    subst hc'
    exact ⟨⟨_, hco⟩, fun hplain => by simp [hplain] at hconf⟩

/-- Every confidential coin of a proven view, and every coin in the open, has a value. -/
theorem exists_coinValue (hcurve : curve.Interprets crypto)
    (hview : ConfidentialProven crypto view) {c : Coin} (hc : ∃ o, view o = some c)
    (hplain : c.fConfidential = false → 0 ≤ c.out.nValue) : ∃ value, curve.CoinValue c value := by
  obtain ⟨o, ho⟩ := hc
  unfold Curve.CoinValue
  by_cases hconf : c.fConfidential = true
  · obtain ⟨rangeproof, script, hproof⟩ := hview o c ho hconf
    obtain ⟨value, hlt, hcommits⟩ := hcurve.range _ _ _ hproof
    exact ⟨value, by rw [if_pos hconf]; exact ⟨hlt, hcommits⟩⟩
  · refine ⟨c.out.nValue.toNat, ?_⟩
    rw [if_neg hconf, Int.toNat_of_nonneg (hplain (Bool.eq_false_iff.mpr hconf))]

theorem length_effectiveInputs (hsound : TxSound tx)
    (h : verifyConfidentialContextual crypto tx view committed nSpendHeight = .ok fee) :
    (effectiveInputs tx.ctBundle).length ≤ 1000000 ∧ tx.ctBundle.outputs.length ≤ 1000000 := by
  obtain ⟨hinputs, -⟩ := verifyConfidentialContextual_tally h
  have hv : tx.version = pricoinCTVersion := by
    simp only [verifyConfidentialContextual, bind_ok, rejectIf_ok, not_not] at h
    obtain ⟨-, hv, -⟩ := h
    exact hv
  have hbundle := hsound.bundle hv
  obtain ⟨hin, hout⟩ := length_le_serializeNoWitness tx
  have hsize := hsound.sized
  refine ⟨?_, by have := hbundle.outputs; omega⟩
  unfold effectiveInputs
  split
  · rename_i hdirect
    rw [if_pos hdirect] at hinputs
    have hlen := (verifyDirectInputs_forall₂ hinputs).length_eq
    rw [Transaction.prevouts, length_map] at hlen
    omega
  · rename_i hring
    have hlen := hbundle.inputs (hbundle.oneMode.mp (not_not.mp hring))
    rw [length_map]
    omega

/-- An accepted transaction conserves value, whatever view of proven coins it is accepted in. -/
theorem value_conserved (hcurve : curve.Interprets crypto) (hview : ConfidentialProven crypto view)
    (hcheck : checkTransaction tx = .ok ())
    (h : verifyConfidentialContextual crypto tx view committed nSpendHeight = .ok fee) :
    curve.Conserves view tx := by
  have hsound := checkTransaction_ok hcheck
  obtain ⟨hinputs, htally⟩ := verifyConfidentialContextual_tally h
  obtain ⟨hin, hout⟩ := length_effectiveInputs hsound h
  refine ⟨exists_spends hcurve hinputs, fun spent hspends => ?_, ?_,
    fun spent ins outs hspends hins houts => ?_⟩
  · obtain ⟨ins, -, hins⟩ := exists_forall₂ (q := fun _ => True) (fun c hc => by
      obtain ⟨hmem, hplain⟩ := spent_coins hinputs hspends hc
      simpa using exists_coinValue hcurve hview hmem hplain) (fun _ hc => hc)
    exact ⟨ins, hins⟩
  · obtain ⟨outs, -, houts⟩ := exists_forall₂ (q := fun _ => True) (fun o ho => by
      have hproof := rangeProofs_of_verifyConfidentialContextual h o ho
      simpa [Curve.OutputValue] using hcurve.range _ _ _ hproof) (fun _ ho => ho)
    exact ⟨outs, houts⟩
  · have heff := commitsTo_effectiveInputs hcurve hinputs hspends hins
    rw [hcurve.tally] at htally
    refine sum_eq_of_verifySumZero htally (heff.imp fun _ _ hv => hv.2) ?_ ?_ ?_
      tx.ctBundle.transparentFee.toNat_lt hin (by rwa [length_map])
    · rw [forall₂_map_left_iff]
      exact houts.imp fun _ _ hv => hv.2
    · intro v hv
      obtain ⟨claim, -, hlt, -⟩ := exists_right_of_mem heff.flip hv
      exact hlt
    · intro w hw
      obtain ⟨o, -, hlt, -⟩ := exists_right_of_mem houts.flip hw
      exact hlt

/-- In every run from the empty chain, a transaction that is accepted against the tip, against the
memory pool or in the next block conserves value. -/
theorem value_conserved_of_run {rules : Rules} {keys : PubKeys}
    (hcurve : curve.Interprets rules.crypto) {store : Store} {steps : List TipStep}
    {s : Chainstate} (hrun : run (tipStep rules keys) (emptyChain store) steps = .ok s)
    (hview : NodeView rules s view) {tx : Transaction} (hcheck : checkTransaction tx = .ok ())
    {fee : ℤ}
    (h : verifyConfidentialContextual rules.crypto tx view committed nSpendHeight = .ok fee) :
    curve.Conserves view tx :=
  value_conserved hcurve (confidentialProven_nodeView (chainProven_run hrun) hview) hcheck h

end Verification

section Sample

instance : NeZero curveOrder := ⟨by decide⟩

abbrev SamplePoint := ZMod curveOrder × ZMod curveOrder

/-- Two bytes for the value and the blinding factor. -/
def sampleEncode (p : SamplePoint) : Option Commitment :=
  if p.1.val < 256 ∧ p.2.val < 256 then
    some ⟨UInt8.ofNat p.1.val :: UInt8.ofNat p.2.val :: List.replicate 31 0, rfl⟩
  else none

def sampleDecode (c : Commitment) : Option SamplePoint :=
  match c.toList with
  | v :: b :: _ => some ((v.toNat : ZMod curveOrder), (b.toNat : ZMod curveOrder))
  | _ => none

theorem sampleDecode_sampleEncode {p : SamplePoint} (h : sampleEncode p = some c) :
    sampleDecode c = some p := by
  unfold sampleEncode at h
  split at h
  · rename_i hsmall
    rw [← some.inj h]
    simp only [sampleDecode, List.Vector.toList_mk, Option.some.injEq]
    refine Prod.ext ?_ ?_
    · simp [Nat.mod_eq_of_lt hsmall.1]
    · simp [Nat.mod_eq_of_lt hsmall.2]
  · contradiction

def sampleCurve : Curve SamplePoint where
  G := (0, 1)
  H := (1, 0)
  independent a b h := by simpa using h
  parseCommitment := sampleDecode
  serializeCommitment := sampleEncode
  parse_commitment _ _ := sampleDecode_sampleEncode
  parsePoint := sampleDecode
  serializePoint := sampleEncode
  parse_point _ _ := sampleDecode_sampleEncode

/-- A range proof is accepted for whatever can be parsed, and a ring signature for two multiples of
the blinding generator. -/
def curveCrypto : Crypto where
  sha256 := sampleCrypto.sha256
  verifyMultiLayer members _ _ := members.any (fun m =>
    (sampleDecode m.1).any (fun p => p.1 = 0) && (sampleDecode m.2).any (fun p => p.1 = 0))
  subtractCommitments := sampleCurve.subtractCommitments
  commitTo value := sampleCurve.create value 0
  verifyRangeProof c _ _ := (sampleDecode c).isSome
  verifySumZero := sampleCurve.verifySumZero

theorem exists_smul_of_any (h : (sampleDecode c).any (fun p => p.1 = 0) = true) :
    ∃ x : ZMod curveOrder, sampleDecode c = some (x • sampleCurve.G) := by
  cases hp : sampleDecode c with
  | none => simp [hp] at h
  | some p =>
    simp only [hp, any_some, decide_eq_true_eq] at h
    refine ⟨p.2, congrArg some (Prod.ext ?_ ?_)⟩
    · simp [sampleCurve, h]
    · simp [sampleCurve]

theorem sampleCurve_interprets : sampleCurve.Interprets curveCrypto where
  subtract := rfl
  commit _ := rfl
  tally := rfl
  range c _ _ h := by
    obtain ⟨p, hp⟩ := isSome_iff_exists.mp h
    unfold sampleDecode at hp
    split at hp
    · rename_i v b rest hc
      refine ⟨v.toNat, v.toNat_lt.trans (by decide), p, ?_, b.toNat, ?_⟩
      · simp only [sampleCurve, sampleDecode, hc, hp]
      · rw [← some.inj hp]
        simp [sampleCurve, Generators.commit]
    · contradiction
  ring members _ _ h := by
    obtain ⟨m, hm, hboth⟩ := any_eq_true.mp h
    rw [Bool.and_eq_true] at hboth
    obtain ⟨x, hx⟩ := exists_smul_of_any hboth.1
    obtain ⟨z, hz⟩ := exists_smul_of_any hboth.2
    exact ⟨m, hm, x, z, hx, hz⟩

def curveRules : Rules := { sampleRules with crypto := curveCrypto }

def sampleCommitment (value : UInt8) : Commitment := ⟨value :: List.replicate 32 0, rfl⟩

/-- A direct spend of a coin of five to an output of four, with a fee of one. -/
def sampleTransfer : Transaction where
  version := pricoinCTVersion
  vin := [⟨samplePoint, [], 0, []⟩]
  vout := [⟨0, []⟩]
  nLockTime := 0
  ctBundle := ⟨[sampleCommitment 5], [],
    [⟨sampleCommitment 4, [0], [], zeroPoint, zeroPoint⟩], 1⟩

def sampleAdded : CoinsView :=
  Function.update (fun _ => none) samplePoint.outPoint (some (.transparent ⟨5, []⟩ 1 false))

theorem sampleAdded_unconfirmed : Unconfirmed sampleAdded := by
  intro o c hc
  unfold sampleAdded at hc
  by_cases ho : o = samplePoint.outPoint
  · subst ho
    rw [Function.update_self, Option.some.injEq] at hc
    subst hc
    rfl
  · rw [Function.update_of_ne ho] at hc
    contradiction

theorem value_conserved_of_run_transfer :
    sampleCurve.Conserves (viewMempool curveCrypto sampleAdded emptyPool (fun _ => none))
      sampleTransfer := by
  have hcheck : checkTransaction sampleTransfer = .ok () := by decide +kernel
  have hverify : succeeds (fun _ => true) (verifyConfidentialContextual curveCrypto sampleTransfer
      (viewMempool curveCrypto sampleAdded emptyPool (fun _ => none)) ∅ 1) = true := by
    decide +kernel
  obtain ⟨fee, hfee, -⟩ := succeeds_iff.mp hverify
  exact @value_conserved_of_run _ _ _ _ sampleCurve _ _ _ curveRules samplePubKeys
    sampleCurve_interprets ⟨.empty, none, true⟩ [] _ rfl
    (.mempool sampleAdded_unconfirmed emptyPool) _ hcheck _ hfee

end Sample

end Pricoin.ValueConservation
