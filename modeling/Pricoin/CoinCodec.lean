import Pricoin.UndoCodec

/-!
The record of an unspent coin in the chainstate. Height, confidential flag and coinbase
flag share one variable-length integer, the output follows in compressed form, and the
commitment and the one-time key follow if the coin is confidential. The undo data keep
the same fields in another order, and a coin that passes through both formats comes back
with the bytes it had.
-/
namespace Pricoin.CoinCodec

open ByteStreams Codecs KeyImageFile Transactions Coins UndoCodec

section Format

variable (keys : PubKeys)

/-- The commitment and the one-time key, if there are any. -/
def readConfidential (fConfidential : Bool) (s : List UInt8) :
    Option ((Commitment × Point) × List UInt8) :=
  if fConfidential then do
    let (commitment, s) ← readBytes 33 s
    let (oneTimePubkey, s) ← readBytes 33 s
    some ((commitment, oneTimePubkey), s)
  else some ((zeroPoint, zeroPoint), s)

/-- The codec of the chainstate, which reads into a new coin. -/
def coinCodec : Codec Coin where
  write c :=
    let code := (c.nHeight * 4 + c.fConfidential.toNat * 2 + c.fCoinBase.toNat) % 2 ^ 32
    varInt32.write code ++ ((txOutCompression keys).write c.out ++
      if c.fConfidential then c.commitment.toList ++ c.oneTimePubkey.toList else [])
  read s := do
    let (code, s) ← varInt32.read s
    let fConfidential := code / 2 % 2 == 1
    let (out, s) ← (txOutCompression keys).read s
    let ((commitment, oneTimePubkey), s) ← readConfidential fConfidential s
    some (⟨out, code % 2 == 1, fConfidential, code / 4 % 2 ^ 30, commitment, oneTimePubkey⟩, s)

/-- A coin as the formats keep it: only a confidential coin has a commitment and a key. -/
def cleared (c : Coin) : Coin :=
  if c.fConfidential then c else { c with commitment := zeroPoint, oneTimePubkey := zeroPoint }

/-- The heights, amounts and scripts of unspent coins. -/
structure Unspent (c : Coin) : Prop where
  height_lt : c.nHeight < 2 ^ 30
  money : MoneyRange c.out.nValue
  script : c.out.scriptPubKey.length ≤ maxScriptSize

end Format

section RoundTrips

variable {keys : PubKeys} {c : Coin}

theorem readConfidential_append (fConfidential : Bool) (commitment : Commitment)
    (oneTimePubkey : Point) (rest : List UInt8) :
    readConfidential fConfidential ((if fConfidential then commitment.toList ++
        oneTimePubkey.toList else []) ++ rest) =
      some (if fConfidential then (commitment, oneTimePubkey) else (zeroPoint, zeroPoint),
        rest) := by
  cases fConfidential with
  | false => rfl
  | true =>
    rw [readConfidential, if_pos rfl, if_pos rfl, if_pos rfl, List.append_assoc]
    simp [readBytes_append]

/-- The parts of the integer come back. -/
theorem code_parts {nHeight : ℕ} (h : nHeight < 2 ^ 30) (fConfidential fCoinBase : Bool) :
    nHeight * 4 + fConfidential.toNat * 2 + fCoinBase.toNat < 2 ^ 32 ∧
    (nHeight * 4 + fConfidential.toNat * 2 + fCoinBase.toNat) / 4 % 2 ^ 30 = nHeight ∧
    ((nHeight * 4 + fConfidential.toNat * 2 + fCoinBase.toNat) / 2 % 2 == 1) = fConfidential ∧
    ((nHeight * 4 + fConfidential.toNat * 2 + fCoinBase.toNat) % 2 == 1) = fCoinBase := by
  have hconfidential := fConfidential.toNat_lt
  have hcoinbase := fCoinBase.toNat_lt
  refine ⟨by omega, by omega, ?_, ?_⟩
  · have hbit : (nHeight * 4 + fConfidential.toNat * 2 + fCoinBase.toNat) / 2 % 2 =
        fConfidential.toNat := by omega
    rw [hbit]
    cases fConfidential <;> rfl
  · have hbit : (nHeight * 4 + fConfidential.toNat * 2 + fCoinBase.toNat) % 2 =
        fCoinBase.toNat := by omega
    rw [hbit]
    cases fCoinBase <;> rfl

theorem reads_coin (h : Unspent c) : (coinCodec keys).Reads c (cleared c) := by
  intro rest
  obtain ⟨hcode, hheight, hconfidential, hcoinbase⟩ :=
    code_parts h.height_lt c.fConfidential c.fCoinBase
  have hread := lossless_varInt32 hcode
  have hout := lossless_txOut keys h.money h.script
  simp only [coinCodec, Nat.mod_eq_of_lt hcode, List.append_assoc]
  refine Option.bind_eq_some_iff.mpr ⟨_, hread _, ?_⟩
  refine Option.bind_eq_some_iff.mpr ⟨_, hout _, ?_⟩
  dsimp only
  rw [hheight, hconfidential, hcoinbase, readConfidential_append]
  unfold cleared
  cases hflag : c.fConfidential with
  | false => rfl
  | true =>
    rw [if_pos rfl, if_pos rfl, ← hflag]
    rfl

theorem cleared_of_plain
    (hplain : c.fConfidential = false → c.commitment = zeroPoint ∧ c.oneTimePubkey = zeroPoint) :
    cleared c = c := by
  obtain ⟨out, fCoinBase, fConfidential, nHeight, commitment, oneTimePubkey⟩ := c
  cases fConfidential with
  | false =>
    obtain ⟨rfl, rfl⟩ := hplain rfl
    rfl
  | true => rfl

theorem reads_confidential (flag : Bool) (commitment : Commitment) (oneTimePubkey : Point) :
    confidentialCodec.Reads (flag, commitment, oneTimePubkey)
      (if flag then (flag, commitment, oneTimePubkey) else (flag, zeroPoint, zeroPoint)) := by
  cases flag with
  | false => exact fun rest => rfl
  | true => exact lossless_confidential fun habs => absurd habs (by decide)

theorem reads_undo (h : Unspent c) : (txInUndo keys).Reads c (cleared c) := by
  have hparts := Codec.Reads.pair (lossless_height h.height_lt c.fCoinBase)
    (Codec.Reads.pair (lossless_txOut keys h.money h.script)
      (reads_confidential c.fConfidential c.commitment c.oneTimePubkey))
  have hreads : (txInUndo keys).Reads c _ := Codec.Reads.via hparts
  convert hreads using 1
  obtain ⟨out, fCoinBase, fConfidential, nHeight, commitment, oneTimePubkey⟩ := c
  cases fConfidential <;> rfl

/-- The bytes of a coin are those of what the formats keep of it. -/
theorem write_cleared (c : Coin) :
    (coinCodec keys).write (cleared c) = (coinCodec keys).write c := by
  unfold cleared
  cases hflag : c.fConfidential with
  | false => simp [coinCodec, hflag]
  | true => rfl

end RoundTrips

section Formats

variable (keys : PubKeys)

/-- Both formats give an unspent coin back and leave what follows; a coin that is not
confidential comes back without the fields that it has no use for. Through both formats the coin
keeps its bytes. -/
theorem coin_formats_agree {c : Coin} (h : Unspent c) :
    (coinCodec keys).Reads c (cleared c) ∧ (txInUndo keys).Reads c (cleared c) ∧
    ((c.fConfidential = false → c.commitment = zeroPoint ∧ c.oneTimePubkey = zeroPoint) →
      (coinCodec keys).Lossless c ∧ (txInUndo keys).Lossless c) ∧
    ∀ rest rest', ∃ read restored,
      (coinCodec keys).read ((coinCodec keys).write c ++ rest) = some (read, rest) ∧
      (txInUndo keys).read ((txInUndo keys).write read ++ rest') = some (restored, rest') ∧
      (coinCodec keys).write restored = (coinCodec keys).write c := by
  have hcoin : (coinCodec keys).Reads c (cleared c) := reads_coin h
  have hundo : (txInUndo keys).Reads c (cleared c) := reads_undo h
  refine ⟨hcoin, hundo, fun hplain => ?_, fun rest rest' => ?_⟩
  · rw [cleared_of_plain hplain] at hcoin hundo
    exact ⟨hcoin, hundo⟩
  · have hcleared : Unspent (cleared c) := by
      unfold cleared
      split
      · exact h
      · exact ⟨h.height_lt, h.money, h.script⟩
    refine ⟨cleared c, cleared (cleared c), hcoin rest, reads_undo hcleared rest', ?_⟩
    rw [write_cleared, write_cleared]

theorem decompress_sample (key : Bytes 65) (compressed : Bytes 33) (h : false = true) :
    key.toList.head? = some 0x04 → compressed.toList =
      (0x02 ||| (key.toList.getLast?.getD 0 &&& 0x01)) :: (key.toList.drop 1).take 32 →
    none = some key :=
  absurd h Bool.false_ne_true

/-- A library that takes no full key for valid. -/
def sampleKeys : PubKeys where
  isFullyValid _ := false
  decompress _ := none
  decompress_compressed := decompress_sample

def sampleCoin : Coin :=
  ⟨⟨0, [0, 20]⟩, true, true, 2 ^ 30 - 1, .replicate 33 8, .replicate 33 2⟩

theorem coin_formats_agree_sample :
    (coinCodec sampleKeys).Lossless sampleCoin ∧ (txInUndo sampleKeys).Lossless sampleCoin ∧
    (coinCodec sampleKeys).write sampleCoin ≠ (txInUndo sampleKeys).write sampleCoin := by
  have hcoin : Unspent sampleCoin := ⟨by decide, by decide, by decide⟩
  obtain ⟨-, -, hlossless, -⟩ := coin_formats_agree sampleKeys hcoin
  obtain ⟨hchain, hundo⟩ := hlossless fun habs => absurd habs (by decide)
  exact ⟨hchain, hundo, by decide +kernel⟩

end Formats

end Pricoin.CoinCodec
