import Pricoin.Coins

/-!
The undo data on disk. A spent coin is written with its height and coinbase flag
in one variable-length integer, its output in compressed form, and a trailing
flag with the commitment and one-time key of a confidential coin. The round trip
is exact on the coins that the view can hold. The empty coins that stand in for
ring inputs do not come back unchanged, but nothing behind them is disturbed.
-/
namespace Pricoin.UndoCodec

open ByteStreams Codecs KeyImageFile Transactions Coins List Option

variable {script : Script}

section Amounts

/-- Divide by ten while that is exact, at most `fuel` times, and count how often it was. -/
def stripZeros : ℕ → ℕ → ℕ × ℕ
  | 0, n => (n, 0)
  | fuel + 1, n =>
    if n % 10 = 0 then ((stripZeros fuel (n / 10)).1, (stripZeros fuel (n / 10)).2 + 1)
    else (n, 0)

/-- Amount compression in 64-bit arithmetic. -/
def compressAmount (n : ℕ) : ℕ :=
  if n = 0 then 0
  else
    let m := (stripZeros 9 n).1
    let e := (stripZeros 9 n).2
    if e < 9 then (1 + (m / 10 * 9 + m % 10 - 1) * 10 + e) % 2 ^ 64
    else (1 + (m - 1) * 10 + 9) % 2 ^ 64

def decompressAmount (x : ℕ) : ℕ :=
  if x = 0 then 0
  else
    let e := (x - 1) % 10
    let x := (x - 1) / 10
    let n := if e < 9 then x / 9 * 10 + (x % 9 + 1) else x + 1
    n * 10 ^ e % 2 ^ 64

theorem stripZeros_spec (fuel n : ℕ) (hn : 0 < n) :
    (stripZeros fuel n).1 * 10 ^ (stripZeros fuel n).2 = n ∧ (stripZeros fuel n).2 ≤ fuel ∧
    ((stripZeros fuel n).2 < fuel → (stripZeros fuel n).1 % 10 ≠ 0) := by
  induction fuel generalizing n with
  | zero => simp [stripZeros]
  | succ fuel ih =>
    unfold stripZeros
    by_cases h : n % 10 = 0
    · obtain ⟨hvalue, hle, hdigit⟩ := ih (n / 10) (by omega)
      simp only [if_pos h]
      refine ⟨?_, by omega, fun hlt => hdigit (by omega)⟩
      rw [Nat.pow_succ, ← Nat.mul_assoc, hvalue]
      omega
    · simp only [if_neg h]
      exact ⟨by simp, Nat.zero_le _, fun _ => h⟩

private theorem decompressAmount_of_digits {m e : ℕ} (hm : m % 10 ≠ 0) (he : e < 9) :
    decompressAmount (1 + (m / 10 * 9 + m % 10 - 1) * 10 + e) = m * 10 ^ e % 2 ^ 64 := by
  have hexp : (1 + (m / 10 * 9 + m % 10 - 1) * 10 + e - 1) % 10 = e := by omega
  have hquot : (1 + (m / 10 * 9 + m % 10 - 1) * 10 + e - 1) / 10 = m / 10 * 9 + m % 10 - 1 := by
    omega
  have hback : (m / 10 * 9 + m % 10 - 1) / 9 * 10 + ((m / 10 * 9 + m % 10 - 1) % 9 + 1) = m := by
    omega
  unfold decompressAmount
  rw [if_neg (by omega)]
  simp only [hexp, hquot, if_pos he, hback]

private theorem decompressAmount_of_nine {m : ℕ} (hm : 0 < m) :
    decompressAmount (1 + (m - 1) * 10 + 9) = m * 10 ^ 9 % 2 ^ 64 := by
  have hexp : (1 + (m - 1) * 10 + 9 - 1) % 10 = 9 := by omega
  have hquot : (1 + (m - 1) * 10 + 9 - 1) / 10 = m - 1 := by omega
  unfold decompressAmount
  rw [if_neg (by omega)]
  simp only [hexp, hquot, Nat.lt_irrefl, if_false, Nat.sub_add_cancel hm]

/-- Amounts in the money range come back. -/
theorem decompressAmount_compressAmount {n : ℕ} (h : n ≤ 2100000000000000) :
    decompressAmount (compressAmount n) = n := by
  unfold compressAmount
  by_cases hzero : n = 0
  · simp [hzero, decompressAmount]
  · obtain ⟨hvalue, hle, hdigit⟩ := stripZeros_spec 9 n (Nat.pos_of_ne_zero hzero)
    simp only [if_neg hzero]
    generalize (stripZeros 9 n).1 = m at hvalue hdigit
    generalize (stripZeros 9 n).2 = e at hle hvalue hdigit
    have hbound : m ≤ n := by
      rw [← hvalue]
      exact Nat.le_mul_of_pos_right m (Nat.pow_pos (by decide))
    have hwrap : m * 10 ^ e % 2 ^ 64 = n := by
      rw [hvalue]
      omega
    by_cases he : e < 9
    · rw [if_pos he, Nat.mod_eq_of_lt (by omega), decompressAmount_of_digits (hdigit he) he, hwrap]
    · have hnine : e = 9 := by omega
      subst hnine
      have hpos : 0 < m := by
        rcases Nat.eq_zero_or_pos m with rfl | hpos
        · omega
        · exact hpos
      rw [if_neg (Nat.lt_irrefl 9), Nat.mod_eq_of_lt (by omega), decompressAmount_of_nine hpos,
        hwrap]

theorem compressAmount_lt (n : ℕ) : compressAmount n < 2 ^ 64 := by
  unfold compressAmount
  split
  · decide
  · dsimp only
    split <;> exact Nat.mod_lt _ (by decide)

end Amounts

/-- What the compressor needs of public keys: the uncompressed key is found again from its
compressed form. -/
structure PubKeys where
  isFullyValid : Bytes 65 → Bool
  decompress : Bytes 33 → Option (Bytes 65)
  decompress_compressed : ∀ (key : Bytes 65) (compressed : Bytes 33), isFullyValid key = true →
    key.toList.head? = some 0x04 → compressed.toList =
      (0x02 ||| (key.toList.getLast?.getD 0 &&& 0x01)) :: (key.toList.drop 1).take 32 →
    decompress compressed = some key

section Scripts

def opDup : UInt8 := 0x76

def opHash160 : UInt8 := 0xa9

def opEqual : UInt8 := 0x87

def opEqualVerify : UInt8 := 0x88

def opCheckSig : UInt8 := 0xac

def nSpecialScripts : ℕ := 6

variable (keys : PubKeys)

def isToKeyID (script : Script) : Option (List UInt8) :=
  if script.length = 25 ∧ script.take 3 = [opDup, opHash160, 20] ∧
    script.drop 23 = [opEqualVerify, opCheckSig] then some ((script.drop 3).take 20) else none

def isToScriptID (script : Script) : Option (List UInt8) :=
  if script.length = 23 ∧ script.take 2 = [opHash160, 20] ∧ script.drop 22 = [opEqual] then
    some ((script.drop 2).take 20)
  else none

/-- The key of a pay-to-pubkey script, when it has a compressed form. -/
def isToPubKey (script : Script) : Option (List UInt8) :=
  if script.length = 35 ∧ script.take 1 = [33] ∧ script.drop 34 = [opCheckSig] ∧
    (script.drop 1).head? ∈ [some 2, some 3] then some ((script.drop 1).take 33)
  else if h : ((script.drop 1).take 65).length = 65 then
    if script.length = 67 ∧ script.take 1 = [65] ∧ script.drop 66 = [opCheckSig] ∧
      (script.drop 1).head? = some 4 ∧ keys.isFullyValid ⟨(script.drop 1).take 65, h⟩ = true then
      some ((script.drop 1).take 65)
    else none
  else none

/-- The tag and the payload of a script with a short form. -/
def compressScript (script : Script) : Option (UInt8 × List UInt8) :=
  match isToKeyID script with
  | some keyID => some (0x00, keyID)
  | none =>
    match isToScriptID script with
    | some scriptID => some (0x01, scriptID)
    | none =>
      match isToPubKey keys script with
      | some pubkey =>
        match pubkey with
        | [] => none
        | tag :: rest =>
          if tag = 0x02 ∨ tag = 0x03 then some (tag, rest.take 32)
          else if tag = 0x04 then some (0x04 ||| (rest.getLast?.getD 0 &&& 0x01), rest.take 32)
          else none
      | none => none

def getSpecialScriptSize (nSize : ℕ) : ℕ := if nSize < 2 then 20 else 32

/-- The script of a short form, left empty when its key does not decompress. -/
def decompressScript (nSize : ℕ) (payload : List UInt8) : Script :=
  if nSize = 0 then [opDup, opHash160, 20] ++ payload ++ [opEqualVerify, opCheckSig]
  else if nSize = 1 then [opHash160, 20] ++ payload ++ [opEqual]
  else if nSize = 2 ∨ nSize = 3 then [33, UInt8.ofNat nSize] ++ payload ++ [opCheckSig]
  else if h : (UInt8.ofNat (nSize - 2) :: payload).length = 33 then
    match keys.decompress ⟨UInt8.ofNat (nSize - 2) :: payload, h⟩ with
    | some key => [65] ++ key.toList ++ [opCheckSig]
    | none => []
  else []

/-- Take raw bytes off the front. -/
def readRaw (n : ℕ) (s : List UInt8) : Option (List UInt8 × List UInt8) :=
  if n ≤ s.length then some (s.take n, s.drop n) else none

def scriptCompression : Codec Script where
  write script :=
    match compressScript keys script with
    | some (tag, payload) => tag :: payload
    | none => varInt32.write ((script.length + nSpecialScripts) % 2 ^ 32) ++ script
  read s := do
    let (nSize, s) ← varInt32.read s
    if nSize < nSpecialScripts then
      let (payload, s) ← readRaw (getSpecialScriptSize nSize) s
      some (decompressScript keys nSize payload, s)
    else
      let (script, s) ← readRaw (nSize - nSpecialScripts) s
      some (if maxScriptSize < nSize - nSpecialScripts then [opReturn] else script, s)

theorem readRaw_append (bs rest : List UInt8) :
    readRaw bs.length (bs ++ rest) = some (bs, rest) := by
  simp [readRaw]

private theorem take_mid_drop (l : List UInt8) (a b : ℕ) :
    l.take a ++ (l.drop a).take b ++ l.drop (a + b) = l := by
  rw [append_assoc, ← drop_drop, take_append_drop, take_append_drop]

private theorem eq_of_isToKeyID {id : Script} (h : isToKeyID script = some id) :
    id.length = 20 ∧ script = [opDup, opHash160, 20] ++ id ++ [opEqualVerify, opCheckSig] := by
  unfold isToKeyID at h
  split at h
  · rename_i hs
    obtain ⟨hlen, hhead, htail⟩ := hs
    obtain rfl := some.inj h
    refine ⟨by simp [hlen], ?_⟩
    rw [← hhead, ← htail]
    exact (take_mid_drop script 3 20).symm
  · contradiction

private theorem eq_of_isToScriptID {id : Script} (h : isToScriptID script = some id) :
    id.length = 20 ∧ script = [opHash160, 20] ++ id ++ [opEqual] := by
  unfold isToScriptID at h
  split at h
  · rename_i hs
    obtain ⟨hlen, hhead, htail⟩ := hs
    obtain rfl := some.inj h
    refine ⟨by simp [hlen], ?_⟩
    rw [← hhead, ← htail]
    exact (take_mid_drop script 2 20).symm
  · contradiction

/-- A script that pays to a key, compressed or whole. -/
private theorem eq_of_isToPubKey {pubkey : Script} (h : isToPubKey keys script = some pubkey) :
    (∃ tag x, pubkey = tag :: x ∧ x.length = 32 ∧ (tag = 2 ∨ tag = 3) ∧
      script = [33] ++ pubkey ++ [opCheckSig]) ∨
    (∃ key : Bytes 65, pubkey = key.toList ∧ key.toList.head? = some 4 ∧
      keys.isFullyValid key = true ∧ script = [65] ++ pubkey ++ [opCheckSig]) := by
  unfold isToPubKey at h
  split at h
  · left
    rename_i hs
    obtain ⟨hlen, hhead, htail, htag⟩ := hs
    obtain rfl := some.inj h
    have hscript : script = [33] ++ (script.drop 1).take 33 ++ [opCheckSig] := by
      rw [← hhead, ← htail]
      exact (take_mid_drop script 1 33).symm
    cases hdrop : script.drop 1 with
    | nil =>
      rw [hdrop] at htag
      simp at htag
    | cons tag x =>
      rw [hdrop] at htag hscript
      have hx : x.length = 33 := by
        have := congrArg List.length hdrop
        simp [hlen] at this
        omega
      refine ⟨tag, x.take 32, by simp, by simp [hx], by simpa using htag, ?_⟩
      simpa using hscript
  · split at h
    · split at h
      · right
        rename_i hkey hs
        obtain ⟨hlen, hhead, htail, htag, hvalid⟩ := hs
        obtain rfl := some.inj h
        refine ⟨⟨(script.drop 1).take 65, hkey⟩, rfl, ?_, hvalid, ?_⟩
        · change ((script.drop 1).take 65).head? = some 4
          rw [List.head?_take, htag]
          rfl
        · rw [← hhead, ← htail]
          exact (take_mid_drop script 1 65).symm
      · contradiction
    · contradiction

private theorem parity_cases (b : UInt8) : b &&& 1 = 0 ∨ b &&& 1 = 1 := by
  have hmod : (b &&& 1).toNat = b.toNat % 2 := by
    rw [UInt8.toNat_and]
    exact Nat.and_one_is_mod b.toNat
  rcases Nat.mod_two_eq_zero_or_one b.toNat with h | h
  · exact .inl (UInt8.toNat_inj.mp (hmod.trans h))
  · exact .inr (UInt8.toNat_inj.mp (hmod.trans h))

/-- The short form of a script decompresses to the script. -/
theorem decompressScript_compressScript {payload : Script} {tag : UInt8}
    (h : compressScript keys script = some (tag, payload)) :
    tag.toNat < nSpecialScripts ∧ payload.length = getSpecialScriptSize tag.toNat ∧
    decompressScript keys tag.toNat payload = script := by
  unfold compressScript at h
  split at h
  · rename_i keyID hid
    obtain ⟨rfl, rfl⟩ := Prod.mk.inj (some.inj h)
    obtain ⟨hlen, hscript⟩ := eq_of_isToKeyID hid
    exact ⟨by decide, hlen, hscript.symm⟩
  split at h
  · rename_i scriptID hid
    obtain ⟨rfl, rfl⟩ := Prod.mk.inj (some.inj h)
    obtain ⟨hlen, hscript⟩ := eq_of_isToScriptID hid
    exact ⟨by decide, hlen, hscript.symm⟩
  split at h
  · rename_i pubkey hpub
    rcases eq_of_isToPubKey keys hpub with ⟨tag', x, rfl, hx, htag, hscript⟩ |
      ⟨key, rfl, hhead, hvalid, hscript⟩
    · simp only [if_pos htag, some.injEq, Prod.mk.injEq] at h
      obtain ⟨rfl, rfl⟩ := h
      have hwhole : x.take 32 = x := take_of_length_le (by omega)
      rw [hwhole, hscript]
      rcases htag with rfl | rfl
      · exact ⟨by decide, hx, rfl⟩
      · exact ⟨by decide, hx, rfl⟩
    · cases hkey : key.toList with
      | nil =>
        rw [hkey] at hhead
        simp at hhead
      | cons four rest =>
        rw [hkey] at hhead hscript h
        obtain rfl : four = 4 := some.inj hhead
        have hrest : rest.length = 64 := by
          have hlen : key.toList.length = 65 := key.toList_length
          rw [hkey, length_cons] at hlen
          omega
        simp only [show ¬ ((4 : UInt8) = 0x02 ∨ (4 : UInt8) = 0x03) by decide, if_false, if_true,
          some.injEq, Prod.mk.injEq] at h
        obtain ⟨rfl, rfl⟩ := h
        have hpayload : (rest.take 32).length = 32 := by simp [hrest]
        have hlast : key.toList.getLast? = rest.getLast? := by
          rw [hkey]
          exact List.getLast?_cons_of_ne_nil (ne_nil_of_length_pos (by omega))
        -- the tag keeps the parity of the second coordinate
        have htag : ∃ first : UInt8, first = 0x02 ||| (rest.getLast?.getD 0 &&& 0x01) ∧
            (0x04 ||| (rest.getLast?.getD 0 &&& 0x01)).toNat - 2 = first.toNat ∧
            3 < (0x04 ||| (rest.getLast?.getD 0 &&& 0x01)).toNat ∧
            (0x04 ||| (rest.getLast?.getD 0 &&& 0x01)).toNat < 6 := by
          rcases parity_cases (rest.getLast?.getD 0) with hp | hp <;> rw [hp]
          · exact ⟨2, by decide, by decide, by decide, by decide⟩
          · exact ⟨3, by decide, by decide, by decide, by decide⟩
        obtain ⟨first, hfirst, hsub, hlow, hhigh⟩ := htag
        generalize (0x04 ||| (rest.getLast?.getD 0 &&& 0x01)).toNat = nSize at hsub hlow hhigh
        have hdec : ∀ hlen, keys.decompress ⟨UInt8.ofNat (nSize - 2) :: rest.take 32, hlen⟩ =
            some key := by
          intro hlen
          refine keys.decompress_compressed key _ hvalid (by rw [hkey]; rfl) ?_
          change UInt8.ofNat (nSize - 2) :: rest.take 32 = _
          rw [hlast, ← hfirst, hsub, UInt8.ofNat_toNat, hkey]
          rfl
        refine ⟨hhigh, ?_, ?_⟩
        · rw [hpayload, getSpecialScriptSize, if_neg (by omega)]
        · unfold decompressScript
          rw [if_neg (by omega), if_neg (by omega), if_neg (by omega),
            dif_pos (by simp [hrest])]
          simp only [hdec, hkey]
          exact hscript.symm
  · contradiction

theorem lossless_script (h : script.length ≤ maxScriptSize) :
    (scriptCompression keys).Lossless script := by
  intro rest
  cases hc : compressScript keys script with
  | none =>
    have hsmall : script.length + nSpecialScripts < 2 ^ 32 := by
      simp only [maxScriptSize, nSpecialScripts] at h ⊢
      omega
    have hread := lossless_varInt32 hsmall (script ++ rest)
    simp only [scriptCompression, hc, Nat.mod_eq_of_lt hsmall, append_assoc, hread]
    simp [nSpecialScripts, readRaw_append, Nat.not_lt.mpr h]
  | some p =>
    obtain ⟨tag, payload⟩ := p
    obtain ⟨htag, hlen, hback⟩ := decompressScript_compressScript keys hc
    have hread : varInt32.read (tag :: (payload ++ rest)) = some (tag.toNat, payload ++ rest) := by
      have hbyte : varInt32.write tag.toNat = [tag] := by
        simp only [nSpecialScripts] at htag
        simp only [varInt32, varInt, writeVarInt, if_pos (show tag.toNat ≤ 0x7F by omega),
          nil_append, Nat.mod_eq_of_lt (show tag.toNat < 128 by omega), UInt8.ofNat_toNat]
      have hloss := @lossless_varInt32 tag.toNat (Nat.lt_trans tag.toNat_lt (by decide))
        (payload ++ rest)
      rwa [hbyte] at hloss
    simp only [scriptCompression, hc, cons_append, hread]
    simp [htag, ← hlen, readRaw_append, hback]

end Scripts

section Coins

variable (keys : PubKeys)

def amountCompression : Codec ℤ :=
  varInt64.via (fun value => compressAmount (Codec.toUint64 value))
    (fun n => Codec.toInt64 (decompressAmount n))

def txOutCompression : Codec TxOut :=
  (amountCompression.pair (scriptCompression keys)).via (fun out => (out.nValue, out.scriptPubKey))
    (fun p => ⟨p.1, p.2⟩)

/-- The commitment and one-time key behind the flag byte, zero when it is not set. -/
def confidentialCodec : Codec (Bool × Commitment × Point) where
  write p := if p.1 then 1 :: (p.2.1.toList ++ p.2.2.toList) else [0]
  read s := do
    let (cflag, s) ← Codec.byte.read s
    if cflag = 1 then
      let (commitment, s) ← readBytes 33 s
      let (oneTimePubkey, s) ← readBytes 33 s
      some ((true, commitment, oneTimePubkey), s)
    else some ((false, zeroPoint, zeroPoint), s)

/-- Height and coinbase flag, with the dummy version behind a positive height. The height goes
into a field of 30 bits. -/
def heightCodec : Codec (ℕ × Bool) where
  write p := varInt32.write ((p.1 * 2 + p.2.toNat) % 2 ^ 32) ++ if 0 < p.1 then [0] else []
  read s := do
    let (nCode, s) ← varInt32.read s
    let nHeight := nCode / 2 % 2 ^ 30
    let fCoinBase := nCode % 2 == 1
    if 0 < nHeight then
      let (_, s) ← varInt32.read s
      some ((nHeight, fCoinBase), s)
    else some ((nHeight, fCoinBase), s)

def txInUndo : Codec Coin :=
  (heightCodec.pair ((txOutCompression keys).pair confidentialCodec)).via
    (fun c => ((c.nHeight, c.fCoinBase), c.out, (c.fConfidential, c.commitment, c.oneTimePubkey)))
    (fun p => ⟨p.2.1, p.1.2, p.2.2.1, p.1.1, p.2.2.2.1, p.2.2.2.2⟩)

theorem lossless_amount {value : ℤ} (h : MoneyRange value) : amountCompression.Lossless value := by
  obtain ⟨hlow, hhigh⟩ := h
  simp only [maxMoney, coin] at hhigh
  have hle : Codec.toUint64 value ≤ 2100000000000000 := by
    unfold Codec.toUint64
    omega
  refine Codec.Lossless.via (lossless_varInt64 (compressAmount_lt _)) ?_
  rw [decompressAmount_compressAmount hle, Codec.toInt64_toUint64 (by omega) (by omega)]

theorem lossless_txOut {out : TxOut} (hvalue : MoneyRange out.nValue)
    (hscript : out.scriptPubKey.length ≤ maxScriptSize) : (txOutCompression keys).Lossless out :=
  Codec.Lossless.via ((lossless_amount hvalue).pair (lossless_script keys hscript)) rfl

theorem lossless_confidential {flag : Bool} {commitment : Commitment} {oneTimePubkey : Point}
    (h : flag = false → commitment = zeroPoint ∧ oneTimePubkey = zeroPoint) :
    confidentialCodec.Lossless (flag, commitment, oneTimePubkey) := by
  intro rest
  cases flag with
  | false =>
    obtain ⟨rfl, rfl⟩ := h rfl
    rfl
  | true =>
    simp only [confidentialCodec, if_true, cons_append, append_assoc, Codec.byte]
    simp [readBytes_append]

theorem lossless_height {nHeight : ℕ} (h : nHeight < 2 ^ 30) (fCoinBase : Bool) :
    heightCodec.Lossless (nHeight, fCoinBase) := by
  intro rest
  have hcode : nHeight * 2 + fCoinBase.toNat < 2 ^ 32 := by
    cases fCoinBase <;> simp <;> omega
  have hhalf : (nHeight * 2 + fCoinBase.toNat) / 2 % 2 ^ 30 = nHeight := by
    cases fCoinBase <;> simp <;> omega
  have hbit : ((nHeight * 2 + fCoinBase.toNat) % 2 == 1) = fCoinBase := by
    cases fCoinBase <;> simp
  have hdummy : varInt32.read ([0] ++ rest) = some (0, rest) :=
    @lossless_varInt32 0 (by decide) rest
  have hread := lossless_varInt32 hcode
  simp only [heightCodec, Nat.mod_eq_of_lt hcode, append_assoc]
  rw [hread, bind_eq_bind, bind_some]
  simp only [hhalf, hbit]
  by_cases hpos : 0 < nHeight
  · rw [if_pos hpos, if_pos hpos, hdummy]
    rfl
  · rw [if_neg hpos, if_neg hpos]
    rfl

theorem lossless_txInUndo {c : Coin} (h : c.Stored) : (txInUndo keys).Lossless c := by
  have hscript : c.out.scriptPubKey.length ≤ maxScriptSize := by
    have hspend := h.spendable
    simp only [isUnspendable, Bool.or_eq_false_iff, decide_eq_false_iff_not] at hspend
    omega
  exact Codec.Lossless.via ((lossless_height h.height_lt c.fCoinBase).pair
    ((lossless_txOut keys h.money hscript).pair (lossless_confidential h.plain))) rfl

/-- The coin that stands in for a ring input is read as some coin. -/
theorem reads_txInUndo_empty : ∃ c, (txInUndo keys).Reads Coin.empty c := by
  have hout : ∃ out, (txOutCompression keys).Reads Coin.empty.out out :=
    ⟨_, Codec.Reads.via (Codec.Reads.pair
      (Codec.Reads.via (lossless_varInt64 (compressAmount_lt _)))
      (lossless_script keys (by decide)))⟩
  obtain ⟨out, hout⟩ := hout
  have hheight := @lossless_height 0 (by decide) false
  have hflag := @lossless_confidential false _ _ (fun _ => ⟨rfl, rfl⟩)
  exact ⟨_, Codec.Reads.via (Codec.Reads.pair hheight (Codec.Reads.pair hout hflag))⟩

end Coins

section Records

variable (crypto : Crypto) (keys : PubKeys)

abbrev BlockUndo := List (List Coin)

def blockUndo : Codec BlockUndo :=
  Codec.vector maxSize (Codec.vector maxSize (txInUndo keys))

/-- The undo data of a block with its checksum, which covers the hash of the parent. -/
def writeBlockUndo (prev : BlockHash) (undo : BlockUndo) : List UInt8 :=
  let bytes := (blockUndo keys).write undo
  bytes ++ (crypto.hash256 (prev.toList ++ bytes)).toList

def readBlockUndo (prev : BlockHash) (file : List UInt8) : Option BlockUndo := do
  let (undo, s) ← (blockUndo keys).read file
  let (hashChecksum, _) ← readBytes 32 s
  -- the hasher has seen the bytes that the reader took
  if hashChecksum = crypto.hash256 (prev.toList ++ file.take (file.length - s.length)) then
    some undo
  else none

theorem readBlockUndo_writeBlockUndo {prev : BlockHash} {undo undo' : BlockUndo}
    (h : (blockUndo keys).Reads undo undo') :
    readBlockUndo crypto keys prev (writeBlockUndo crypto keys prev undo) = some undo' := by
  have hread := h (crypto.hash256 (prev.toList ++ (blockUndo keys).write undo)).toList
  have hrest := readBytes_append (crypto.hash256 (prev.toList ++ (blockUndo keys).write undo)) []
  rw [append_nil] at hrest
  unfold readBlockUndo writeBlockUndo
  simp [hread, hrest]

end Records

end Pricoin.UndoCodec
