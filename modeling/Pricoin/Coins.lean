import Pricoin.Transactions
import Mathlib.Logic.Function.Basic

/-!
Coins and the coins view. A view gives the unspent coin at an outpoint. Spending
erases it, and adding a transaction's outputs puts one coin at each outpoint of
the transaction that can ever be spent. Adding refuses to overwrite an unspent
coin unless the caller allows it.
-/
namespace Pricoin.Coins

open ByteStreams Codecs KeyImageFile Transactions List Option Function

variable {tx : Transaction} {i : ℕ} {outs : List TxOut} {view view' : CoinsView}

/-- The functions that validation takes from outside: hashing, commitments, range proofs and
ring signatures. -/
structure Crypto where
  sha256 : List UInt8 → Uint256
  verifyMultiLayer : List (Point × Point) → Signature → Uint256 → Bool
  subtractCommitments : Commitment → Commitment → Option Point
  /-- `Commitment::Create` with the zero blinding factor. -/
  commitTo : ℕ → Option Commitment
  verifyRangeProof : Commitment → List UInt8 → Script → Bool
  verifySumZero : List Commitment → List Commitment → ℕ → Bool

/-- The double hash of `HashWriter::GetHash`. -/
def Crypto.hash256 (crypto : Crypto) (bytes : List UInt8) : Uint256 :=
  crypto.sha256 (crypto.sha256 bytes).toList

def Crypto.txid (crypto : Crypto) (tx : Transaction) : Txid :=
  crypto.hash256 (serializeNoWitness tx)

def Crypto.wtxid (crypto : Crypto) (tx : Transaction) : Uint256 :=
  crypto.hash256 (serializeWithWitness tx)

def Crypto.computeRingMessage (crypto : Crypto) (tx : Transaction) : Uint256 :=
  crypto.sha256 (serializeNoWitness (withoutRingSigs tx))

def coin : ℤ := 100000000

def maxMoney : ℤ := 21000000 * coin

def MoneyRange (value : ℤ) : Prop := 0 ≤ value ∧ value ≤ maxMoney

instance (value : ℤ) : Decidable (MoneyRange value) :=
  inferInstanceAs (Decidable (0 ≤ value ∧ value ≤ maxMoney))

def maxScriptSize : ℕ := 10000

def opReturn : UInt8 := 0x6a

def isUnspendable (script : Script) : Bool :=
  script.head? = some opReturn || maxScriptSize < script.length

def zeroPoint : Point := .replicate 33 0

structure Coin where
  out : TxOut
  fCoinBase : Bool
  fConfidential : Bool
  nHeight : ℕ
  commitment : Commitment
  oneTimePubkey : Point
  deriving DecidableEq

namespace Coin

/-- The coin of a plain output. -/
def transparent (out : TxOut) (nHeight : ℕ) (fCoinBase : Bool) : Coin :=
  ⟨out, fCoinBase, false, nHeight, zeroPoint, zeroPoint⟩

def confidential (out : TxOut) (nHeight : ℕ) (fCoinBase : Bool) (o : CTOutput) : Coin :=
  ⟨out, fCoinBase, true, nHeight, o.commitment, o.oneTimePubkey⟩

/-- The coin of the default constructor, which counts as spent. -/
def empty : Coin := transparent ⟨-1, []⟩ 0 false

/-- A coin that a block other than the genesis block has put into the view. -/
structure Stored (c : Coin) : Prop where
  height_pos : 0 < c.nHeight
  height_lt : c.nHeight < 2 ^ 30
  money : MoneyRange c.out.nValue
  spendable : isUnspendable c.out.scriptPubKey = false
  plain : c.fConfidential = false → c.commitment = zeroPoint ∧ c.oneTimePubkey = zeroPoint

end Coin

abbrev CoinsView := OutPoint → Option Coin

namespace CoinsView

def haveCoin (view : CoinsView) (o : OutPoint) : Bool := (view o).isSome

def haveInputs (view : CoinsView) (tx : Transaction) : Bool :=
  tx.isCoinBase || tx.prevouts.all view.haveCoin

def spendCoin (view : CoinsView) (o : OutPoint) : CoinsView := Function.update view o none

/-- Put a coin in place. Overwriting an unspent coin without leave is a logic error. -/
def addCoin (view : CoinsView) (o : OutPoint) (c : Coin) (possibleOverwrite : Bool) :
    Option CoinsView :=
  if isUnspendable c.out.scriptPubKey then some view
  else if !possibleOverwrite && view.haveCoin o then none
  else some (Function.update view o (some c))

end CoinsView

section AddCoins

variable (crypto : Crypto)

/-- The coin that a transaction's output becomes. -/
def outputCoin (tx : Transaction) (nHeight : ℕ) (i : ℕ) (out : TxOut) : Coin :=
  if tx.version = pricoinCTVersion ∧ tx.isCoinBase = false then
    match tx.ctBundle.outputs[i]? with
    | some o => .confidential out nHeight tx.isCoinBase o
    | none => .transparent out nHeight tx.isCoinBase
  else .transparent out nHeight tx.isCoinBase

/-- The loop of `AddCoins` from an output on. -/
def addCoinsFrom (tx : Transaction) (nHeight : ℕ) (check : Bool) :
    ℕ → List TxOut → CoinsView → Option CoinsView
  | _, [], view => some view
  | i, out :: outs, view => do
    let o : OutPoint := ⟨crypto.txid tx, i⟩
    let overwrite := if check then view.haveCoin o else tx.isCoinBase
    let view ← view.addCoin o (outputCoin tx nHeight i out) overwrite
    addCoinsFrom tx nHeight check (i + 1) outs view

def addCoins (tx : Transaction) (nHeight : ℕ) (check : Bool) (view : CoinsView) :
    Option CoinsView :=
  addCoinsFrom crypto tx nHeight check 0 tx.vout view

/-- The coins that the outputs from an index on leave behind. -/
def createdFrom (tx : Transaction) (nHeight : ℕ) (i : ℕ) (outs : List TxOut) : CoinsView := fun o =>
  if o.hash = crypto.txid tx ∧ i ≤ o.n then
    (outs[o.n - i]?).bind fun out =>
      if isUnspendable out.scriptPubKey then none else some (outputCoin tx nHeight o.n out)
  else none

/-- The coins that a transaction leaves behind. -/
def createdCoins (tx : Transaction) (nHeight : ℕ) : CoinsView :=
  createdFrom crypto tx nHeight 0 tx.vout

/-- The coins of one view in front of those of another. -/
def overlay (top base : CoinsView) : CoinsView := fun o => (top o).or (base o)

variable {crypto}

/-- An output becomes a confidential coin where the bundle has an output for it. -/
theorem outputCoin_cases (tx : Transaction) (nHeight i : ℕ) (out : TxOut) :
    outputCoin tx nHeight i out = .transparent out nHeight tx.isCoinBase ∨
    ∃ o, tx.ctBundle.outputs[i]? = some o ∧
      outputCoin tx nHeight i out = .confidential out nHeight tx.isCoinBase o := by
  unfold outputCoin
  split
  · split
    · rename_i o ho
      exact .inr ⟨o, ho, rfl⟩
    · exact .inl rfl
  · exact .inl rfl

@[simp] theorem outputCoin_out (tx : Transaction) (nHeight i : ℕ) (out : TxOut) :
    (outputCoin tx nHeight i out).out = out := by
  rcases outputCoin_cases tx nHeight i out with h | ⟨o, -, h⟩ <;> rw [h] <;> rfl

@[simp] theorem outputCoin_nHeight (tx : Transaction) (nHeight i : ℕ) (out : TxOut) :
    (outputCoin tx nHeight i out).nHeight = nHeight := by
  rcases outputCoin_cases tx nHeight i out with h | ⟨o, -, h⟩ <;> rw [h] <;> rfl

@[simp] theorem outputCoin_fCoinBase (tx : Transaction) (nHeight i : ℕ) (out : TxOut) :
    (outputCoin tx nHeight i out).fCoinBase = tx.isCoinBase := by
  rcases outputCoin_cases tx nHeight i out with h | ⟨o, -, h⟩ <;> rw [h] <;> rfl

theorem createdFrom_nil (tx : Transaction) (nHeight i : ℕ) (o : OutPoint) :
    createdFrom crypto tx nHeight i [] o = none := by
  simp [createdFrom]

theorem createdFrom_head (tx : Transaction) (nHeight i : ℕ) (out : TxOut) (outs : List TxOut) :
    createdFrom crypto tx nHeight i (out :: outs) ⟨crypto.txid tx, i⟩ =
      if isUnspendable out.scriptPubKey then none else some (outputCoin tx nHeight i out) := by
  simp [createdFrom]

theorem createdFrom_tail (tx : Transaction) (nHeight i : ℕ) (out : TxOut) (outs : List TxOut)
    {o : OutPoint} (ho : o ≠ ⟨crypto.txid tx, i⟩) :
    createdFrom crypto tx nHeight i (out :: outs) o =
      createdFrom crypto tx nHeight (i + 1) outs o := by
  obtain ⟨hash, n⟩ := o
  unfold createdFrom
  by_cases hhash : hash = crypto.txid tx
  · have hn : n ≠ i := by
      rintro rfl
      exact ho (by rw [hhash])
    by_cases hle : i ≤ n
    · have hsub : n - i = (n - (i + 1)) + 1 := by omega
      simp only [hhash, true_and, if_pos hle, if_pos (show i + 1 ≤ n by omega), hsub,
        List.getElem?_cons_succ]
    · simp only [hhash, true_and, if_neg hle, if_neg (show ¬ i + 1 ≤ n by omega)]
  · simp [hhash]

theorem createdFrom_some {nHeight : ℕ} {o : OutPoint} {c : Coin}
    (h : createdFrom crypto tx nHeight i outs o = some c) :
    o.hash = crypto.txid tx ∧ i ≤ o.n ∧ ∃ out, outs[o.n - i]? = some out ∧
      isUnspendable out.scriptPubKey = false ∧ c = outputCoin tx nHeight o.n out := by
  unfold createdFrom at h
  split at h
  · rename_i hown
    obtain ⟨out, hout, h⟩ := bind_eq_some_iff.mp h
    split at h
    · contradiction
    · rename_i hspend
      exact ⟨hown.1, hown.2, out, hout, Bool.eq_false_iff.mpr hspend, (some.inj h).symm⟩
  · contradiction

theorem createdFrom_own (tx : Transaction) (nHeight i : ℕ) (outs : List TxOut) :
    createdFrom crypto tx nHeight (i + 1) outs ⟨crypto.txid tx, i⟩ = none := by
  simp [createdFrom]

theorem overlay_createdFrom_cons {nHeight : ℕ} {out : TxOut}
    (hout : isUnspendable out.scriptPubKey = false) :
    overlay (createdFrom crypto tx nHeight (i + 1) outs)
      (Function.update view ⟨crypto.txid tx, i⟩ (some (outputCoin tx nHeight i out))) =
    overlay (createdFrom crypto tx nHeight i (out :: outs)) view := by
  funext o
  unfold overlay
  by_cases ho : o = ⟨crypto.txid tx, i⟩
  · subst ho
    simp [createdFrom_own, createdFrom_head, hout]
  · rw [createdFrom_tail tx nHeight i out outs ho, update_of_ne ho]

theorem overlay_createdFrom_skip {nHeight : ℕ} {out : TxOut}
    (hout : isUnspendable out.scriptPubKey = true) :
    overlay (createdFrom crypto tx nHeight (i + 1) outs) view =
    overlay (createdFrom crypto tx nHeight i (out :: outs)) view := by
  funext o
  unfold overlay
  by_cases ho : o = ⟨crypto.txid tx, i⟩
  · subst ho
    simp [createdFrom_own, createdFrom_head, hout]
  · rw [createdFrom_tail tx nHeight i out outs ho]

/-- What adding a run of outputs does, and what it has found free to do it. -/
theorem addCoinsFrom_some {nHeight : ℕ} {check : Bool}
    (h : addCoinsFrom crypto tx nHeight check i outs view = some view') :
    view' = overlay (createdFrom crypto tx nHeight i outs) view ∧
    (check = false → tx.isCoinBase = false →
      ∀ o, createdFrom crypto tx nHeight i outs o ≠ none → view o = none) := by
  induction outs generalizing i view with
  | nil =>
    simp only [addCoinsFrom, some.injEq] at h
    subst h
    exact ⟨by funext o; simp [overlay, createdFrom_nil],
      fun _ _ o ho => absurd (createdFrom_nil tx nHeight i o) ho⟩
  | cons out outs ih =>
    simp only [addCoinsFrom, bind_eq_bind, bind_eq_some_iff] at h
    obtain ⟨next, hadd, hrest⟩ := h
    obtain ⟨hview, hfree⟩ := ih hrest
    unfold CoinsView.addCoin at hadd
    rw [outputCoin_out] at hadd
    by_cases hout : isUnspendable out.scriptPubKey = true
    · rw [if_pos hout, some.injEq] at hadd
      subst hadd
      refine ⟨hview.trans (overlay_createdFrom_skip hout), fun hc hcb o ho => ?_⟩
      by_cases hown : o = ⟨crypto.txid tx, i⟩
      · subst hown
        simp [createdFrom_head, hout] at ho
      · rw [createdFrom_tail tx nHeight i out outs hown] at ho
        exact hfree hc hcb o ho
    · rw [if_neg hout] at hadd
      generalize hover : (if check = true then view.haveCoin ⟨crypto.txid tx, i⟩
        else tx.isCoinBase) = overwrite at hadd
      split at hadd
      · contradiction
      · rename_i hclear
        rw [some.injEq] at hadd
        subst hadd
        refine ⟨hview.trans (overlay_createdFrom_cons (Bool.eq_false_iff.mpr hout)),
          fun hc hcb o ho => ?_⟩
        by_cases hown : o = ⟨crypto.txid tx, i⟩
        · subst hown
          simpa [← hover, hc, hcb, CoinsView.haveCoin] using hclear
        · rw [createdFrom_tail tx nHeight i out outs hown] at ho
          have hnone := hfree hc hcb o ho
          rwa [update_of_ne hown] at hnone

/-- Adding outputs succeeds when overwriting is allowed or nothing is overwritten. -/
theorem addCoinsFrom_of_free {tx : Transaction} {nHeight i : ℕ} {check : Bool}
    {outs : List TxOut} {view : CoinsView}
    (h : check = true ∨ tx.isCoinBase = true ∨
      ∀ o, createdFrom crypto tx nHeight i outs o ≠ none → view o = none) :
    addCoinsFrom crypto tx nHeight check i outs view =
      some (overlay (createdFrom crypto tx nHeight i outs) view) := by
  induction outs generalizing i view with
  | nil =>
    simp only [addCoinsFrom, some.injEq]
    funext o
    simp [overlay, createdFrom_nil]
  | cons out outs ih =>
    simp only [addCoinsFrom, CoinsView.addCoin, outputCoin_out]
    by_cases hout : isUnspendable out.scriptPubKey = true
    · rw [if_pos hout, bind_eq_bind, bind_some,
        ih (h.imp id (Or.imp id fun hfree o ho => ?_)), overlay_createdFrom_skip hout]
      by_cases hown : o = ⟨crypto.txid tx, i⟩
      · subst hown
        exact absurd (createdFrom_own tx nHeight i outs) ho
      · exact hfree o (by rwa [createdFrom_tail tx nHeight i out outs hown])
    · have hclear : (!(if check = true then view.haveCoin ⟨crypto.txid tx, i⟩ else tx.isCoinBase) &&
          view.haveCoin ⟨crypto.txid tx, i⟩) = false := by
        rcases h with hc | hcb | hfree
        · simp [hc]
        · by_cases hc : check = true <;> simp [hc, hcb]
        · have hnone := hfree ⟨crypto.txid tx, i⟩ (by simp [createdFrom_head, hout])
          simp [CoinsView.haveCoin, hnone]
      rw [if_neg hout, hclear, if_neg Bool.false_ne_true, bind_eq_bind, bind_some,
        ih (h.imp id (Or.imp id fun hfree o ho => ?_)),
        overlay_createdFrom_cons (Bool.eq_false_iff.mpr hout)]
      by_cases hown : o = ⟨crypto.txid tx, i⟩
      · subst hown
        exact absurd (createdFrom_own tx nHeight i outs) ho
      · rw [update_of_ne hown]
        exact hfree o (by rwa [createdFrom_tail tx nHeight i out outs hown])

end AddCoins

section UpdateCoins

variable (crypto : Crypto)

/-- Spend outpoints in turn, keeping the coins for the undo data. -/
def spendInputs : List OutPoint → CoinsView → Option (CoinsView × List Coin)
  | [], view => some (view, [])
  | o :: os, view => do
    let c ← view o
    let (view, undo) ← spendInputs os (view.spendCoin o)
    some (view, c :: undo)

/-- The input half of `UpdateCoins`. The inputs of a ring transaction only mark ring members:
their coins stay, and empty coins stand in for them in the undo data. -/
def markInputsSpent (tx : Transaction) (view : CoinsView) : Option (CoinsView × List Coin) :=
  if tx.isCoinBase then some (view, [])
  else if tx.isV4Ring then some (view, tx.vin.map (fun _ => Coin.empty))
  else spendInputs tx.prevouts view

def updateCoins (tx : Transaction) (nHeight : ℕ) (view : CoinsView) :
    Option (CoinsView × List Coin) := do
  let (view, undo) ← markInputsSpent tx view
  let view ← addCoins crypto tx nHeight false view
  some (view, undo)

/-- The view without the coins at some outpoints. -/
def erase (os : List OutPoint) (view : CoinsView) : CoinsView := fun o =>
  if o ∈ os then none else view o

/-- The outpoints whose coins a transaction erases. -/
def directPrevouts (tx : Transaction) : List OutPoint :=
  if tx.isCoinBase || tx.isV4Ring then [] else tx.prevouts

theorem erase_nil (view : CoinsView) : erase [] view = view := by
  funext o
  simp [erase]

theorem erase_cons (o : OutPoint) (os : List OutPoint) (view : CoinsView) :
    erase (o :: os) view = erase os (view.spendCoin o) := by
  funext o'
  unfold erase CoinsView.spendCoin
  by_cases ho' : o' = o
  · subst ho'
    simp
  · simp [ho']

theorem map_spendCoin {o : OutPoint} {os : List OutPoint} (ho : o ∉ os) (view : CoinsView) :
    os.map (view.spendCoin o) = os.map view := by
  refine map_congr_left fun o' ho' => ?_
  exact update_of_ne (fun heq : o' = o => ho (heq ▸ ho')) ..

theorem spendInputs_some {os : List OutPoint} {undo : List Coin}
    (h : spendInputs os view = some (view', undo)) :
    view' = erase os view ∧ os.map view = undo.map some ∧ os.Nodup := by
  induction os generalizing view undo with
  | nil =>
    simp only [spendInputs, some.injEq, Prod.mk.injEq] at h
    obtain ⟨rfl, rfl⟩ := h
    exact ⟨(erase_nil view).symm, rfl, nodup_nil⟩
  | cons o os ih =>
    simp only [spendInputs, bind_eq_bind, bind_eq_some_iff] at h
    obtain ⟨c, hc, ⟨view₁, undo₁⟩, hrest, heq⟩ := h
    simp only [some.injEq, Prod.mk.injEq] at heq
    obtain ⟨rfl, rfl⟩ := heq
    obtain ⟨hview, hundo, hnd⟩ := ih hrest
    -- a repeated outpoint would have been found empty
    have hfresh : o ∉ os := by
      intro ho
      have hnone : view.spendCoin o o = none := update_self ..
      have hmem : none ∈ undo₁.map some := by
        rw [← hundo]
        exact mem_map.mpr ⟨o, ho, hnone⟩
      simp at hmem
    exact ⟨by rw [hview, erase_cons],
      by rw [map_cons, map_cons, hc, ← hundo, map_spendCoin hfresh],
      nodup_cons.mpr ⟨hfresh, hnd⟩⟩

variable {crypto}

/-- The coins after a transaction, and the undo data it left. -/
theorem updateCoins_some {nHeight : ℕ} {undo : List Coin}
    (h : updateCoins crypto tx nHeight view = some (view', undo)) :
    view' = overlay (createdCoins crypto tx nHeight) (erase (directPrevouts tx) view) ∧
    (tx.isCoinBase = false → ∀ o, createdCoins crypto tx nHeight o ≠ none →
      erase (directPrevouts tx) view o = none) ∧
    (directPrevouts tx).Nodup ∧
    (if tx.isCoinBase then undo = []
      else if tx.isV4Ring then undo = tx.vin.map (fun _ => Coin.empty)
      else tx.prevouts.map view = undo.map some) := by
  simp only [updateCoins, bind_eq_bind, bind_eq_some_iff] at h
  obtain ⟨⟨view₁, undo₁⟩, hspend, view₂, hadd, heq⟩ := h
  simp only [some.injEq, Prod.mk.injEq] at heq
  obtain ⟨rfl, rfl⟩ := heq
  obtain ⟨hview, hfree⟩ := addCoinsFrom_some hadd
  have hspent : view₁ = erase (directPrevouts tx) view ∧ (directPrevouts tx).Nodup ∧
      (if tx.isCoinBase then undo₁ = []
        else if tx.isV4Ring then undo₁ = tx.vin.map (fun _ => Coin.empty)
        else tx.prevouts.map view = undo₁.map some) := by
    unfold markInputsSpent at hspend
    unfold directPrevouts
    by_cases hcb : tx.isCoinBase = true
    · rw [if_pos hcb, some.injEq, Prod.mk.injEq] at hspend
      simp [hcb, ← hspend.1, ← hspend.2, erase_nil]
    · rw [if_neg hcb] at hspend
      by_cases hring : tx.isV4Ring = true
      · rw [if_pos hring, some.injEq, Prod.mk.injEq] at hspend
        simp [hcb, hring, ← hspend.1, ← hspend.2, erase_nil]
      · rw [if_neg hring] at hspend
        obtain ⟨h₁, h₂, h₃⟩ := spendInputs_some hspend
        simp [hcb, hring, h₁, h₂, h₃]
  obtain ⟨hspent, hnd, hundo⟩ := hspent
  rw [hspent] at hview hfree
  exact ⟨hview, fun hcb => hfree rfl hcb, hnd, hundo⟩

end UpdateCoins

end Pricoin.Coins
