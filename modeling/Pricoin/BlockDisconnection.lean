import Pricoin.BlockConnection
import Pricoin.UndoCodec

/-!
Disconnecting a block from the coins view. The transactions are undone last to
first: the outputs are taken out and compared with the block, then the inputs are
put back from the undo data, except those of ring transactions. A mismatch makes
the result unclean and a missing piece of data makes it fail. The block's key
images leave the store unless the disconnection fails.
-/
namespace Pricoin.BlockDisconnection

open ByteStreams Checks KeyImageFile KeyImageStore Transactions Coins TxChecks BlockConnection
open UndoCodec

inductive DisconnectError where
  /-- `DISCONNECT_FAILED`, which leaves the view indeterminate. -/
  | failed
  /-- A failed assertion. -/
  | crash
  deriving DecidableEq, Repr

/-- A view under repair and whether it has matched the block so far. -/
structure Restoring where
  view : CoinsView
  fClean : Bool

/-- The state behind `DISCONNECT_OK`, or behind `DISCONNECT_UNCLEAN` when not clean. -/
structure Disconnected where
  fClean : Bool
  tip : CoinsTip
  store : Store

def maxOutputsPerBlock : ℕ := 111111

def accessByTxid (view : CoinsView) (txid : Txid) : Option Coin :=
  (List.range maxOutputsPerBlock).findSome? (fun n => view ⟨txid, n⟩)

/-- The coin to put back. Without a height it takes its metadata from another output of the
same transaction. -/
def undoMetadata (undo : Coin) (view : CoinsView) (out : OutPoint) : Except DisconnectError Coin :=
  if undo.nHeight = 0 then
    match accessByTxid view out.hash with
    | some alternate => .ok { undo with
        nHeight := alternate.nHeight, fCoinBase := alternate.fCoinBase }
    | none => .error .failed
  else .ok undo

def applyTxInUndo (undo : Coin) (out : OutPoint) (s : Restoring) :
    Except DisconnectError Restoring := do
  let fClean := !s.view.haveCoin out
  let undo ← undoMetadata undo s.view out
  rejectIf (undo.out.nValue = -1) .crash
  match s.view.addCoin out undo (!fClean) with
  | none => .error .crash
  | some view => .ok ⟨view, s.fClean && fClean⟩

/-- The inputs of a transaction, last to first. -/
def restoreInputs : List (OutPoint × Coin) → Restoring → Except DisconnectError Restoring
  | [], s => .ok s
  | (out, undo) :: rest, s => do
    let s ← restoreInputs rest s
    applyTxInUndo undo out s

section Disconnect

variable (crypto : Crypto)

/-- The coin of an output is there as the block has made it. -/
def outputMatches (tx : Transaction) (nHeight : ℕ) (out : TxOut) : Option Coin → Bool
  | none => false
  | some c => c.out = out && c.nHeight = nHeight && c.fCoinBase = tx.isCoinBase

def removeOutputs (tx : Transaction) (nHeight : ℕ) (exempt : Bool) :
    ℕ → List TxOut → Restoring → Restoring
  | _, [], s => s
  | i, out :: outs, s =>
    if isUnspendable out.scriptPubKey then removeOutputs tx nHeight exempt (i + 1) outs s
    else
      let o : OutPoint := ⟨crypto.txid tx, i⟩
      removeOutputs tx nHeight exempt (i + 1) outs
        ⟨s.view.spendCoin o, s.fClean && (exempt || outputMatches tx nHeight out (s.view o))⟩

/-- Undo a transaction. The first one of the block has no undo data. -/
def disconnectTx (nHeight : ℕ) (fEnforceBIP30 : Bool) (tx : Transaction)
    (txundo : Option (List Coin)) (s : Restoring) : Except DisconnectError Restoring :=
  let s := removeOutputs crypto tx nHeight (tx.isCoinBase && !fEnforceBIP30) 0 tx.vout s
  match txundo with
  | none => .ok s
  | some vprevout => do
    rejectIf (vprevout.length ≠ tx.vin.length) .failed
    (if tx.isV4Ring then .ok s else restoreInputs (tx.prevouts.zip vprevout) s)

/-- The transactions of a block, last to first. -/
def disconnectTxs (nHeight : ℕ) (fEnforceBIP30 : Bool) :
    List (Transaction × Option (List Coin)) → Restoring → Except DisconnectError Restoring
  | [], s => .ok s
  | (tx, txundo) :: rest, s => do
    let s ← disconnectTxs nHeight fEnforceBIP30 rest s
    disconnectTx crypto nHeight fEnforceBIP30 tx txundo s

def bip30OverwrittenHash₁ : BlockHash :=
  ⟨[0x00, 0x00, 0x00, 0x00, 0x00, 0x02, 0x71, 0xa2, 0xdc, 0x26, 0xe7, 0x66, 0x7f, 0x84, 0x19, 0xf2,
    0xe1, 0x54, 0x16, 0xdc, 0x69, 0x55, 0xe5, 0xa6, 0xc6, 0xcd, 0xf3, 0xf2, 0x57, 0x4d, 0xd0,
    0x8e].reverse, rfl⟩

def bip30OverwrittenHash₂ : BlockHash :=
  ⟨[0x00, 0x00, 0x00, 0x00, 0x00, 0x0a, 0xf0, 0xae, 0xd4, 0x79, 0x2b, 0x1a, 0xce, 0xe3, 0xd9, 0x66,
    0xaf, 0x36, 0xcf, 0x5d, 0xef, 0x14, 0x93, 0x5d, 0xb8, 0xde, 0x83, 0xd6, 0xf9, 0x30, 0x6f,
    0x2f].reverse, rfl⟩

/-- All blocks but the two of another chain whose coinbases were overwritten later. -/
def enforceMatch (pindex : BlockIndex) : Bool :=
  !((pindex.nHeight = 91722 && pindex.hash = bip30OverwrittenHash₁) ||
    (pindex.nHeight = 91812 && pindex.hash = bip30OverwrittenHash₂))

variable (keys : PubKeys)

/-- Disconnect a block with the undo record on disk. -/
def disconnectBlock (block : Block) (pindex : BlockIndex) (undoFile : Option (List UInt8))
    (tip : CoinsTip) (store : Store) : Except DisconnectError Disconnected :=
  match undoFile, pindex.ancestors with
  | none, _ => .error .failed
  | some _, [] => .error .crash
  | some file, prev :: _ =>
    match readBlockUndo crypto keys prev file with
    | none => .error .failed
    | some vtxundo => do
      rejectIf (vtxundo.length + 1 ≠ block.vtx.length) .failed
      let s ← disconnectTxs crypto pindex.nHeight (enforceMatch pindex)
        (block.vtx.zip (none :: vtxundo.map some)) ⟨tip.coins, true⟩
      .ok ⟨s.fClean, ⟨s.view, prev⟩, uncommitBlockKIs pindex.hash store⟩

end Disconnect

theorem disconnectBlock_ok {crypto : Crypto} {keys : PubKeys} {block : Block} {pindex : BlockIndex}
    {undoFile : Option (List UInt8)} {tip : CoinsTip} {store : Store} {d : Disconnected} :
    disconnectBlock crypto keys block pindex undoFile tip store = .ok d ↔
    ∃ file prev rest vtxundo s, undoFile = some file ∧ pindex.ancestors = prev :: rest ∧
      readBlockUndo crypto keys prev file = some vtxundo ∧
      vtxundo.length + 1 = block.vtx.length ∧
      disconnectTxs crypto pindex.nHeight (enforceMatch pindex)
        (block.vtx.zip (none :: vtxundo.map some)) ⟨tip.coins, true⟩ = .ok s ∧
      d = ⟨s.fClean, ⟨s.view, prev⟩, uncommitBlockKIs pindex.hash store⟩ := by
  unfold disconnectBlock
  generalize pindex.ancestors = ancestors
  cases undoFile with
  | none => simp
  | some file =>
    cases ancestors with
    | nil => simp
    | cons prev rest =>
      simp only
      cases hread : readBlockUndo crypto keys prev file with
      | none => simp [hread]
      | some vtxundo =>
        simp only [bind_ok, rejectIf_ok, not_not, Except.ok.injEq, Option.some.injEq,
          List.cons.injEq]
        constructor
        · rintro ⟨-, hlen, s, hs, rfl⟩
          exact ⟨file, prev, rest, vtxundo, s, rfl, ⟨rfl, rfl⟩, hread, hlen, hs, rfl⟩
        · rintro ⟨_, _, _, _, s, rfl, ⟨rfl, rfl⟩, hread', hlen, hs, rfl⟩
          obtain rfl := Option.some.inj (hread.symm.trans hread')
          exact ⟨(), hlen, s, hs, rfl⟩

end Pricoin.BlockDisconnection
