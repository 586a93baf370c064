import Pricoin.BlockConnection

/-!
The checks that a block has passed before it can be connected. They put the height
of the block at the start of the coinbase script, as a script number. No script
starts with two different heights, so coinbases at different heights differ.
-/
namespace Pricoin.BlockAcceptance

open ByteStreams Checks Transactions BlockConnection List

variable {n : ℕ}

section ScriptNumbers

/-- The loop of `CScriptNum::serialize` on an absolute value. -/
def scriptNumDigits : ℕ → ℕ → List UInt8
  | 0, _ => []
  | fuel + 1, n => if n = 0 then [] else UInt8.ofNat n :: scriptNumDigits fuel (n / 256)

/-- A positive script number of at most 64 bits. A zero byte keeps the sign bit clear. -/
def serializeScriptNum (n : ℕ) : List UInt8 :=
  let result := scriptNumDigits 8 n
  if 0x80 ≤ result.getLast?.getD 0 then result ++ [0] else result

/-- `CScript() << n` for a height. -/
def pushInt (n : ℕ) : Script :=
  if n = 0 then [0]
  else if n ≤ 16 then [UInt8.ofNat (0x50 + n)]
  else
    let vch := serializeScriptNum n
    UInt8.ofNat vch.length :: vch

theorem scriptNumDigits_length (fuel n : ℕ) : (scriptNumDigits fuel n).length ≤ fuel := by
  induction fuel generalizing n with
  | zero => rfl
  | succ fuel ih =>
    unfold scriptNumDigits
    split
    · exact Nat.zero_le _
    · exact Nat.succ_le_succ (ih (n / 256))

theorem leValue_scriptNumDigits {fuel : ℕ} (h : n < 256 ^ fuel) :
    leValue (scriptNumDigits fuel n) = n := by
  induction fuel generalizing n with
  | zero =>
    rw [Nat.pow_zero, Nat.lt_one_iff] at h
    rw [h]
    rfl
  | succ fuel ih =>
    unfold scriptNumDigits
    split
    · rename_i hzero
      rw [hzero]
      rfl
    · rw [leValue, ih (Nat.div_lt_of_lt_mul (by rwa [← Nat.pow_succ'])), UInt8.toNat_ofNat']
      omega

theorem leValue_append_zero (bytes : List UInt8) : leValue (bytes ++ [0]) = leValue bytes := by
  induction bytes with
  | nil => rfl
  | cons b rest ih => rw [cons_append, leValue, leValue, ih]

theorem leValue_serializeScriptNum (h : n < 2 ^ 64) : leValue (serializeScriptNum n) = n := by
  have hdigits : leValue (scriptNumDigits 8 n) = n := leValue_scriptNumDigits h
  unfold serializeScriptNum
  dsimp only
  split
  · rw [leValue_append_zero, hdigits]
  · exact hdigits

theorem serializeScriptNum_length (n : ℕ) : (serializeScriptNum n).length ≤ 9 := by
  have hdigits := scriptNumDigits_length 8 n
  unfold serializeScriptNum
  dsimp only
  split
  · rw [length_append, length_singleton]
    omega
  · omega

theorem serializeScriptNum_length_pos (h : n < 2 ^ 64) (hpos : 0 < n) :
    0 < (serializeScriptNum n).length := by
  refine length_pos_iff.mpr fun hnil => ?_
  have hvalue := leValue_serializeScriptNum h
  rw [hnil, leValue] at hvalue
  omega

/-- A long height starts with a length, a short one with a byte that is no such length. -/
theorem pushInt_cases (n : ℕ) :
    (n ≤ 16 ∧ ∃ b : UInt8, pushInt n = [b] ∧ b.toNat = if n = 0 then 0 else 0x50 + n) ∨
    (16 < n ∧ ∃ b : UInt8, pushInt n = b :: serializeScriptNum n ∧
      b.toNat = (serializeScriptNum n).length) := by
  have hlen := serializeScriptNum_length n
  unfold pushInt
  by_cases hzero : n = 0
  · exact .inl ⟨by omega, 0, by simp [hzero], by simp [hzero]⟩
  · rw [if_neg hzero]
    by_cases hsmall : n ≤ 16
    · refine .inl ⟨hsmall, _, if_pos hsmall, ?_⟩
      rw [UInt8.toNat_ofNat', if_neg hzero]
      omega
    · refine .inr ⟨by omega, _, if_neg hsmall, ?_⟩
      rw [UInt8.toNat_ofNat']
      omega

theorem pushInt_inj_of_prefix {m : ℕ} (hm : m < 2 ^ 64) (hn : n < 2 ^ 64) {script : Script}
    (h : pushInt m <+: script) (h' : pushInt n <+: script) : m = n := by
  obtain ⟨rest, rfl⟩ := h
  have hlm := serializeScriptNum_length m
  have hln := serializeScriptNum_length n
  rcases pushInt_cases m with ⟨hle, b, hb, hval⟩ | ⟨hlt, b, hb, hval⟩ <;>
    rcases pushInt_cases n with ⟨hle', b', hb', hval'⟩ | ⟨hlt', b', hb', hval'⟩ <;>
    rw [hb, hb', cons_append, cons_prefix_cons] at h' <;>
    obtain ⟨rfl, htail⟩ := h'
  · rw [hval] at hval'
    split at hval' <;> split at hval' <;> omega
  · have hpos := serializeScriptNum_length_pos hn (by omega)
    rw [hval] at hval'
    split at hval' <;> omega
  · have hpos := serializeScriptNum_length_pos hm (by omega)
    rw [hval'] at hval
    split at hval <;> omega
  · have hsame : serializeScriptNum n = serializeScriptNum m :=
      (prefix_of_prefix_length_le htail (prefix_append _ _) (by omega)).eq_of_length
        (by omega)
    rw [← leValue_serializeScriptNum hm, ← hsame, leValue_serializeScriptNum hn]

end ScriptNumbers

section Acceptance

variable (rules : Rules)

def coinbaseScript (block : Block) : Script :=
  ((block.vtx.head?.bind (fun tx => tx.vin.head?)).map (fun txin => txin.scriptSig)).getD []

/-- The height comes first in the coinbase script, from the first block behind the genesis block. -/
def contextualCheckBlock (block : Block) (pindex : BlockIndex) : Except BlockError Unit := do
  rejectIf (∃ tx ∈ block.vtx, rules.isFinalTx tx block pindex = false)
    (.invalid "bad-txns-nonfinal")
  rejectIf (bip34Height ≤ pindex.nHeight ∧ ¬ pushInt pindex.nHeight <+: coinbaseScript block)
    (.invalid "bad-cb-height")
  rules.checkWitness block pindex

/-- The checks of `AcceptBlock` on the contents of a block. -/
def acceptBlock (block : Block) (pindex : BlockIndex) : Except BlockError Unit := do
  checkBlock rules true true block pindex.nHeight
  contextualCheckBlock rules block pindex

variable {rules}

theorem acceptBlock_ok {block : Block} {pindex : BlockIndex} {u : Unit}
    (h : acceptBlock rules block pindex = .ok u) :
    BlockChecked block ∧
    (pindex.ancestors ≠ [] → pushInt pindex.nHeight <+: coinbaseScript block) := by
  simp only [acceptBlock, contextualCheckBlock, bind_ok, rejectIf_ok, not_and, not_not] at h
  obtain ⟨u, hcheck, -, -, -, hheight, -⟩ := h
  refine ⟨checkBlock_ok hcheck, fun hparent => hheight ?_⟩
  exact length_pos_iff.mpr hparent

end Acceptance

end Pricoin.BlockAcceptance
