import Pricoin.Checks
import Pricoin.Coins

/-!
The checks of a single transaction. `checkTransaction` needs no context. The
contextual check of a version 4 transaction looks up the coins that a direct
input spends, or the ring members that a ring input names, and compares key
images with the committed ones. A direct input is never compared with them.
-/
namespace Pricoin.TxChecks

open ByteStreams Codecs Checks KeyImageFile Transactions Coins List

variable {u : Unit} {tx : Transaction}

inductive TxValidationResult where
  | consensus
  | missingInputs
  | prematureSpend
  | mempoolPolicy
  | conflict
  | witnessMutated
  | notStandard
  | reconsiderable
  | unknown
  deriving DecidableEq, Repr

structure TxReject where
  result : TxValidationResult
  reason : String
  deriving DecidableEq, Repr

def badTx (reason : String) : TxReject := ⟨.consensus, reason⟩

def maxBlockWeight : ℕ := 4000000

def witnessScaleFactor : ℕ := 4

def coinbaseMaturity : ℤ := 100

section CheckTransaction

/-- The output values one by one, with the total so far. -/
def checkValues : ℤ → List TxOut → Except TxReject Unit
  | _, [] => .ok ()
  | total, out :: outs => do
    rejectIf (out.nValue < 0) (badTx "bad-txns-vout-negative")
    rejectIf (maxMoney < out.nValue) (badTx "bad-txns-vout-toolarge")
    rejectIf (¬ MoneyRange (total + out.nValue)) (badTx "bad-txns-txouttotal-toolarge")
    checkValues (total + out.nValue) outs

def checkBundleOutput (p : TxOut × CTOutput) : Except TxReject Unit := do
  rejectIf (p.1.scriptPubKey ≠ p.2.scriptPubkey) (badTx "bad-pct-script-mismatch")
  rejectIf (p.2.rangeproof = []) (badTx "bad-pct-empty-rangeproof")

/-- The structure of a confidential transaction. -/
def checkBundle (tx : Transaction) : Except TxReject Unit := do
  rejectIf (tx.isCoinBase = true) (badTx "bad-pct-coinbase")
  let b := tx.ctBundle
  rejectIf (b.inputCommitments ≠ [] ∧ b.ringInputs ≠ []) (badTx "bad-pct-mixed-input-modes")
  rejectIf (b.inputCommitments = [] ∧ b.ringInputs = []) (badTx "bad-pct-no-inputs")
  let inputCount := if b.inputCommitments ≠ [] then b.inputCommitments.length
    else b.ringInputs.length
  rejectIf (inputCount ≠ tx.vin.length) (badTx "bad-pct-input-count")
  rejectIf (b.outputs.length ≠ tx.vout.length) (badTx "bad-pct-output-count")
  rejectIf (∃ out ∈ tx.vout, out.nValue ≠ 0) (badTx "bad-pct-nonzero-vout")
  checkAll checkBundleOutput (tx.vout.zip b.outputs)
  rejectIf (maxMoney < b.transparentFee.toNat) (badTx "bad-pct-fee-toolarge")
  rejectIf (¬ (b.ringInputs.map (fun ri => ri.sig.keyImage)).Nodup)
    (badTx "bad-pct-double-spend-keyimage-intra")

def checkInputs (tx : Transaction) : Except TxReject Unit :=
  if tx.isCoinBase then
    rejectIf (∃ txin ∈ tx.vin, txin.scriptSig.length < 2 ∨ 100 < txin.scriptSig.length)
      (badTx "bad-cb-length")
  else
    rejectIf (∃ txin ∈ tx.vin, txin.prevout.outPoint.isNull = true) (badTx "bad-txns-prevout-null")

/-- Privacy is mandatory: what is not confidential is a coinbase, without a bundle. -/
def checkVersion (tx : Transaction) : Except TxReject Unit :=
  if tx.version = pricoinCTVersion then checkBundle tx
  else do
    rejectIf (tx.isCoinBase = false) (badTx "bad-non-pct-non-coinbase")
    rejectIf (tx.ctBundle.inputCommitments ≠ [] ∨ tx.ctBundle.outputs ≠ [] ∨
      tx.ctBundle.transparentFee ≠ 0) (badTx "bad-non-pct-has-bundle")

def checkTransaction (tx : Transaction) : Except TxReject Unit := do
  rejectIf (tx.vin = []) (badTx "bad-txns-vin-empty")
  rejectIf (tx.vout = []) (badTx "bad-txns-vout-empty")
  rejectIf (maxBlockWeight < (serializeNoWitness tx).length * witnessScaleFactor)
    (badTx "bad-txns-oversize")
  checkValues 0 tx.vout
  rejectIf (¬ tx.prevouts.Nodup) (badTx "bad-txns-inputs-duplicate")
  checkInputs tx
  checkVersion tx

end CheckTransaction

section Contextual

variable (crypto : Crypto)

def immature (nSpendHeight : ℕ) (c : Coin) : Prop :=
  c.fCoinBase = true ∧ (nSpendHeight : ℤ) - c.nHeight < coinbaseMaturity

instance (nSpendHeight : ℕ) (c : Coin) : Decidable (immature nSpendHeight c) :=
  inferInstanceAs (Decidable (c.fCoinBase = true ∧
    (nSpendHeight : ℤ) - c.nHeight < coinbaseMaturity))

/-- The commitment that a direct input to this coin has to claim. -/
def expectedCommitment (c : Coin) : Except TxReject Commitment :=
  if c.fConfidential then .ok c.commitment
  else if MoneyRange c.out.nValue then
    match crypto.commitTo c.out.nValue.toNat with
    | some built => .ok built
    | none => .error (badTx "bad-pct-input-commit-construction")
  else .error (badTx "bad-txns-inputvalues-outofrange")

def verifyDirectInput (view : CoinsView) (nSpendHeight : ℕ) (p : OutPoint × Commitment) :
    Except TxReject Unit :=
  match view p.1 with
  | none => .error (badTx "bad-pct-spent-prevout")
  | some c => do
    rejectIf (immature nSpendHeight c)
      ⟨.prematureSpend, "bad-txns-premature-spend-of-coinbase"⟩
    let expected ← expectedCommitment crypto c
    rejectIf (expected ≠ p.2) (badTx "bad-pct-input-commit-mismatch")

def verifyDirectInputs (tx : Transaction) (view : CoinsView) (nSpendHeight : ℕ) :
    Except TxReject Unit := do
  rejectIf (tx.vin.length ≠ tx.ctBundle.inputCommitments.length) (badTx "bad-pct-input-count")
  checkAll (verifyDirectInput crypto view nSpendHeight)
    (tx.prevouts.zip tx.ctBundle.inputCommitments)

/-- The key and commitment difference that a ring member enters into the signature check. -/
def ringMember (view : CoinsView) (nSpendHeight : ℕ) (pseudo : Commitment) (ref : PrevoutRef) :
    Except TxReject (Point × Point) :=
  match view ref.outPoint with
  | none => .error (badTx "bad-pct-ring-member-missing")
  | some c => do
    rejectIf (c.fConfidential = false) (badTx "bad-pct-ring-member-missing")
    rejectIf (immature nSpendHeight c) ⟨.prematureSpend, "bad-pct-ring-member-immature"⟩
    match crypto.subtractCommitments c.commitment pseudo with
    | none => .error (badTx "bad-pct-commit-delta")
    | some w => .ok (c.oneTimePubkey, w)

def verifyRingInput (view : CoinsView) (committed : Finset Point) (nSpendHeight : ℕ)
    (msg : Uint256) (ri : CTRingInput) : Except TxReject Unit := do
  rejectIf (ri.ring = []) (badTx "bad-pct-empty-ring")
  rejectIf (ri.sig.s.length ≠ ri.ring.length) (badTx "bad-pct-sig-size")
  rejectIf (¬ ri.ring.Nodup) (badTx "bad-pct-ring-duplicate")
  let members ← ri.ring.mapM (ringMember crypto view nSpendHeight ri.pseudoCommitment)
  rejectIf (ri.sig.keyImage ∈ committed) (badTx "bad-pct-double-spend-keyimage")
  rejectIf (crypto.verifyMultiLayer members ri.sig msg = false)
    (badTx "bad-pct-ring-sig-invalid")

def verifyRingInputs (tx : Transaction) (view : CoinsView) (committed : Finset Point)
    (nSpendHeight : ℕ) : Except TxReject Unit :=
  checkAll (verifyRingInput crypto view committed nSpendHeight (crypto.computeRingMessage tx))
    tx.ctBundle.ringInputs

/-- The commitments that enter the tally on the input side. -/
def effectiveInputs (b : CTBundle) : List Commitment :=
  if b.inputCommitments ≠ [] then b.inputCommitments
  else b.ringInputs.map (fun ri => ri.pseudoCommitment)

def verifyConfidentialContextual (tx : Transaction) (view : CoinsView) (committed : Finset Point)
    (nSpendHeight : ℕ) : Except TxReject ℤ := do
  rejectIf (tx.version ≠ pricoinCTVersion) (badTx "bad-pct-not-ct-version")
  rejectIf (view.haveInputs tx = false) ⟨.missingInputs, "bad-txns-inputs-missingorspent"⟩
  let b := tx.ctBundle
  rejectIf (b.inputCommitments ≠ [] ∧ b.ringInputs ≠ []) (badTx "bad-pct-mixed-input-modes")
  rejectIf (b.inputCommitments = [] ∧ b.ringInputs = []) (badTx "bad-pct-no-inputs")
  (if b.inputCommitments ≠ [] then verifyDirectInputs crypto tx view nSpendHeight
  else verifyRingInputs crypto tx view committed nSpendHeight)
  rejectIf (∃ o ∈ b.outputs,
    crypto.verifyRangeProof o.commitment o.rangeproof o.scriptPubkey = false)
    (badTx "bad-pct-rangeproof-invalid")
  rejectIf (crypto.verifySumZero (effectiveInputs b) (b.outputs.map (fun o => o.commitment))
    b.transparentFee.toNat = false) (badTx "bad-pct-tally")
  rejectIf (maxMoney < b.transparentFee.toNat) (badTx "bad-pct-fee-toolarge")
  .ok b.transparentFee.toNat

/-- The inputs of a transparent transaction, with the value so far. -/
def sumInputs (view : CoinsView) (nSpendHeight : ℕ) : ℤ → List OutPoint → Except TxReject ℤ
  | total, [] => .ok total
  | total, o :: os =>
    match view o with
    | none => .error ⟨.missingInputs, "bad-txns-inputs-missingorspent"⟩
    | some c => do
      rejectIf (immature nSpendHeight c)
        ⟨.prematureSpend, "bad-txns-premature-spend-of-coinbase"⟩
      rejectIf (¬ MoneyRange c.out.nValue ∨ ¬ MoneyRange (total + c.out.nValue))
        (badTx "bad-txns-inputvalues-outofrange")
      sumInputs view nSpendHeight (total + c.out.nValue) os

def checkTxInputs (tx : Transaction) (view : CoinsView) (nSpendHeight : ℕ) :
    Except TxReject ℤ := do
  rejectIf (view.haveInputs tx = false) ⟨.missingInputs, "bad-txns-inputs-missingorspent"⟩
  let valueIn ← sumInputs view nSpendHeight 0 tx.prevouts
  rejectIf (valueIn < tx.getValueOut) (badTx "bad-txns-in-belowout")
  rejectIf (¬ MoneyRange (valueIn - tx.getValueOut)) (badTx "bad-txns-fee-outofrange")
  .ok (valueIn - tx.getValueOut)

end Contextual

section Inversion

theorem checkValues_ok {total : ℤ} {outs : List TxOut} (h : checkValues total outs = .ok u) :
    ∀ out ∈ outs, MoneyRange out.nValue := by
  induction outs generalizing total with
  | nil => simp
  | cons out outs ih =>
    simp only [checkValues, bind_ok, rejectIf_ok] at h
    obtain ⟨-, hneg, -, hlarge, -, -, hrest⟩ := h
    refine forall_mem_cons.mpr ⟨⟨?_, ?_⟩, ih hrest⟩ <;> omega

/-- The structure that `checkBundle` establishes. -/
structure BundleSound (tx : Transaction) : Prop where
  notCoinbase : tx.isCoinBase = false
  oneMode : tx.ctBundle.inputCommitments = [] ↔ tx.ctBundle.ringInputs ≠ []
  inputs : tx.ctBundle.ringInputs ≠ [] → tx.ctBundle.ringInputs.length = tx.vin.length
  outputs : tx.ctBundle.outputs.length = tx.vout.length
  images : (tx.ctBundle.ringInputs.map (fun ri => ri.sig.keyImage)).Nodup

theorem checkBundle_ok (h : checkBundle tx = .ok u) : BundleSound tx := by
  simp only [checkBundle, bind_ok, rejectIf_ok, not_not, not_and] at h
  obtain ⟨-, hcb, -, hmixed, -, hnone, -, hcount, -, houts, -, -, -, -, -, -, himages⟩ := h
  refine ⟨Bool.eq_false_iff.mpr hcb, ⟨hnone, fun hring => ?_⟩, fun hring => ?_, houts, himages⟩
  · by_contra hdirect
    exact hring (hmixed hdirect)
  · have hdirect : tx.ctBundle.inputCommitments = [] := by
      by_contra hdirect
      exact hring (hmixed hdirect)
    simpa [hdirect] using hcount

/-- What every transaction of a checked block satisfies. -/
structure TxSound (tx : Transaction) : Prop where
  nonempty : tx.vin ≠ []
  sized : (serializeNoWitness tx).length ≤ 1000000
  values : ∀ out ∈ tx.vout, MoneyRange out.nValue
  nodup : tx.prevouts.Nodup
  notNull : tx.isCoinBase = false → ∀ o ∈ tx.prevouts, o.isNull = false
  version : tx.isCoinBase = false → tx.version = pricoinCTVersion
  bundle : tx.version = pricoinCTVersion → BundleSound tx

theorem checkTransaction_ok (h : checkTransaction tx = .ok u) : TxSound tx := by
  simp only [checkTransaction, bind_ok, rejectIf_ok, not_not] at h
  obtain ⟨-, hvin, -, -, -, hsize, u₁, hvalues, -, hnd, u₂, hinputs, hversion⟩ := h
  refine ⟨hvin, ?_, checkValues_ok hvalues, hnd, fun hcb o ho => ?_, fun hcb => ?_, fun hv => ?_⟩
  · simp only [maxBlockWeight, witnessScaleFactor] at hsize
    omega
  · simp only [checkInputs, hcb, Bool.false_eq_true, if_false, rejectIf_ok, not_exists,
      not_and] at hinputs
    obtain ⟨txin, htxin, rfl⟩ := mem_map.mp ho
    exact Bool.eq_false_iff.mpr (hinputs txin htxin)
  · by_contra hv
    simp [checkVersion, hv, hcb] at hversion
  · rw [checkVersion, if_pos hv] at hversion
    exact checkBundle_ok hversion

theorem TxSound.fits (h : TxSound tx) : tx.Fits := by
  refine ⟨h.sized.trans (by decide), fun out hout => ?_⟩
  obtain ⟨hlow, hhigh⟩ := h.values out hout
  simp only [maxMoney, coin] at hhigh
  omega

theorem TxSound.not_v4_of_coinbase (h : TxSound tx) (hcb : tx.isCoinBase = true) :
    tx.version ≠ pricoinCTVersion := by
  intro hv
  have := (h.bundle hv).notCoinbase
  simp [hcb] at this

theorem TxSound.keyImages_of_coinbase (h : TxSound tx) (hcb : tx.isCoinBase = true) :
    tx.keyImages = [] := by
  simp [Transaction.keyImages, Transaction.ringInputs, h.not_v4_of_coinbase hcb]

variable {crypto : Crypto} {view : CoinsView} {committed : Finset Point} {nSpendHeight : ℕ}

theorem ringMember_ok {pseudo : Commitment} {ref : PrevoutRef} {m : Point × Point}
    (h : ringMember crypto view nSpendHeight pseudo ref = .ok m) :
    ∃ c, view ref.outPoint = some c ∧ c.fConfidential = true ∧ ¬ immature nSpendHeight c ∧
      m.1 = c.oneTimePubkey := by
  unfold ringMember at h
  split at h
  · contradiction
  · rename_i c hc
    simp only [bind_ok, rejectIf_ok, Bool.not_eq_false] at h
    obtain ⟨-, hconf, -, hmature, h⟩ := h
    split at h
    · contradiction
    · rw [Except.ok.injEq] at h
      exact ⟨c, hc, hconf, hmature, by rw [← h]⟩

/-- An accepted ring input: members on chain, a fresh key image and a valid signature. -/
structure RingInputSound (crypto : Crypto) (view : CoinsView) (committed : Finset Point)
    (nSpendHeight : ℕ) (msg : Uint256) (ri : CTRingInput) : Prop where
  members : ∀ ref ∈ ri.ring, ∃ c, view ref.outPoint = some c ∧ c.fConfidential = true
  fresh : ri.sig.keyImage ∉ committed
  signed : ∃ ms, List.Forall₂ (fun ref m => ∃ c, view ref.outPoint = some c ∧
    c.fConfidential = true ∧ m.1 = c.oneTimePubkey) ri.ring ms ∧
    crypto.verifyMultiLayer ms ri.sig msg = true

theorem verifyRingInput_ok {msg : Uint256} {ri : CTRingInput}
    (h : verifyRingInput crypto view committed nSpendHeight msg ri = .ok u) :
    RingInputSound crypto view committed nSpendHeight msg ri := by
  simp only [verifyRingInput, bind_ok, rejectIf_ok, not_not, mapM_ok, Bool.not_eq_false] at h
  obtain ⟨-, -, -, -, -, -, ms, hms, -, hfresh, hsigned⟩ := h
  have hmembers : List.Forall₂ (fun ref m => ∃ c, view ref.outPoint = some c ∧
      c.fConfidential = true ∧ m.1 = c.oneTimePubkey) ri.ring ms := by
    refine hms.imp fun ref m hm => ?_
    obtain ⟨c, hc, hconf, -, hkey⟩ := ringMember_ok hm
    exact ⟨c, hc, hconf, hkey⟩
  refine ⟨fun ref href => ?_, hfresh, ms, hmembers, hsigned⟩
  obtain ⟨m, -, c, hc, hconf, -⟩ := exists_right_of_mem hmembers href
  exact ⟨c, hc, hconf⟩

/-- An accepted confidential transaction. -/
structure ContextSound (crypto : Crypto) (tx : Transaction) (view : CoinsView)
    (committed : Finset Point) (nSpendHeight : ℕ) : Prop where
  present : tx.isCoinBase = false → ∀ o ∈ tx.prevouts, view o ≠ none
  rings : tx.ctBundle.inputCommitments = [] → ∀ ri ∈ tx.ctBundle.ringInputs,
    RingInputSound crypto view committed nSpendHeight (crypto.computeRingMessage tx) ri

theorem verifyConfidentialContextual_ok {fee : ℤ}
    (h : verifyConfidentialContextual crypto tx view committed nSpendHeight = .ok fee) :
    ContextSound crypto tx view committed nSpendHeight := by
  simp only [verifyConfidentialContextual, bind_ok, rejectIf_ok, Bool.not_eq_false] at h
  obtain ⟨-, -, -, hinputs, -, -, -, -, u, hmode, -⟩ := h
  refine ⟨fun hcb o ho => ?_, fun hdirect => ?_⟩
  · simp only [CoinsView.haveInputs, hcb, Bool.false_or, all_eq_true] at hinputs
    exact Option.isSome_iff_ne_none.mp (hinputs o ho)
  · rw [if_neg (not_not.mpr hdirect), verifyRingInputs, checkAll_ok] at hmode
    exact fun ri hri => verifyRingInput_ok (hmode ri hri)

/-- In a sound transaction the ring inputs are those that verification has looked at. -/
theorem ContextSound.ringInputs (h : ContextSound crypto tx view committed nSpendHeight)
    (hsound : TxSound tx) :
    ∀ ri ∈ tx.ringInputs,
      RingInputSound crypto view committed nSpendHeight (crypto.computeRingMessage tx) ri := by
  intro ri hri
  unfold Transaction.ringInputs at hri
  split at hri
  · rename_i hv
    exact h.rings ((hsound.bundle hv).oneMode.mpr (ne_nil_of_mem hri)) ri hri
  · simp at hri

theorem ContextSound.fresh (h : ContextSound crypto tx view committed nSpendHeight)
    (hsound : TxSound tx) : ∀ ki ∈ tx.keyImages, ki ∉ committed := by
  intro ki hki
  obtain ⟨ri, hri, rfl⟩ := mem_map.mp hki
  exact (h.ringInputs hsound ri hri).fresh

/-- Of the committed key images only those that a transaction uses matter to it. -/
theorem verifyConfidentialContextual_congr {committed' : Finset Point}
    (h : ∀ ki ∈ tx.keyImages, ki ∈ committed ↔ ki ∈ committed') :
    verifyConfidentialContextual crypto tx view committed nSpendHeight =
      verifyConfidentialContextual crypto tx view committed' nSpendHeight := by
  by_cases hversion : tx.version = pricoinCTVersion
  · have hrings : verifyRingInputs crypto tx view committed nSpendHeight =
        verifyRingInputs crypto tx view committed' nSpendHeight := by
      refine checkAll_congr fun ri hri => ?_
      have hki := h ri.sig.keyImage (by
        simp only [Transaction.keyImages, Transaction.ringInputs, if_pos hversion]
        exact mem_map_of_mem hri)
      simp only [verifyRingInput, rejectIf_congr hki]
    simp only [verifyConfidentialContextual, hrings]
  · simp only [verifyConfidentialContextual, rejectIf, if_pos hversion]
    rfl

end Inversion

end Pricoin.TxChecks
