import Pricoin.Checks
import Pricoin.ExactCodecs
import Pricoin.Transactions

/-!
Reading transactions. An empty list of inputs announces the extended format, in which a
byte of flags follows and the witnesses stand behind the outputs. The reader refuses
flags that it does not know and witnesses that are all empty, so that a transaction has
one serialisation in each mode and is read back from it.
-/
namespace Pricoin.TransactionCodec

open ByteStreams Codecs Codec ExactCodecs KeyImageFile Transactions Checks List

/-- The stream ends or does not fit its format, or the reader refuses what it has read. -/
inductive ReadError where
  | stream
  | failure (message : String)
  deriving DecidableEq

section Code

def take {α : Type} (c : Codec α) (s : List UInt8) : Except ReadError (α × List UInt8) :=
  match c.read s with
  | none => .error .stream
  | some p => .ok p

def emptyBundle : CTBundle := ⟨[], [], [], 0⟩

def stackCodec : Codec (List (List UInt8)) := vector maxSize (byteVector maxSize)

/-- The flags, inputs and outputs, behind a list of inputs that may announce them. -/
def readInsOuts (allowWitness : Bool) (vin : List TxIn) (s : List UInt8) :
    Except ReadError (UInt8 × List TxIn × List TxOut × List UInt8) :=
  if vin.isEmpty && allowWitness then do
    let (flags, s) ← take byte s
    if flags ≠ 0 then do
      let (vin, s) ← take (vector maxSize txInCodec) s
      let (vout, s) ← take (vector maxSize txOutCodec) s
      .ok (flags, vin, vout, s)
    else .ok (flags, vin, [], s)
  else do
    let (vout, s) ← take (vector maxSize txOutCodec) s
    .ok (0, vin, vout, s)

/-- A stack for every input. -/
def readStacks : List TxIn → List UInt8 → Except ReadError (List TxIn × List UInt8)
  | [], s => .ok ([], s)
  | txin :: vin, s => do
    let (stack, s) ← take stackCodec s
    let (vin, s) ← readStacks vin s
    .ok ({ txin with scriptWitness := stack } :: vin, s)

def anyWitness (vin : List TxIn) : Bool := vin.any fun txin => !txin.scriptWitness.isEmpty

def readWitnesses (allowWitness : Bool) (flags : UInt8) (vin : List TxIn) (s : List UInt8) :
    Except ReadError (UInt8 × List TxIn × List UInt8) :=
  if flags &&& 1 ≠ 0 ∧ allowWitness = true then do
    let (vin, s) ← readStacks vin s
    if !anyWitness vin then .error (.failure "Superfluous witness record")
    else .ok (flags ^^^ 1, vin, s)
  else .ok (flags, vin, s)

def readBundle (version : UInt32) (s : List UInt8) : Except ReadError (CTBundle × List UInt8) :=
  if version = pricoinCTVersion then take (bundleCodec maxSize) s else .ok (emptyBundle, s)

def unserializeTransaction (allowWitness : Bool) (s : List UInt8) :
    Except ReadError (Transaction × List UInt8) := do
  let (version, s) ← take (uint 4) s
  let (vin, s) ← take (vector maxSize txInCodec) s
  let (flags, vin, vout, s) ← readInsOuts allowWitness vin s
  let (flags, vin, s) ← readWitnesses allowWitness flags vin s
  if flags ≠ 0 then .error (.failure "Unknown transaction optional data")
  else do
    let (nLockTime, s) ← take (uint 4) s
    let (ctBundle, s) ← readBundle (UInt32.ofNat version) s
    .ok (⟨UInt32.ofNat version, vin, vout, UInt32.ofNat nLockTime, ctBundle⟩, s)

def serializeTransaction (allowWitness : Bool) (tx : Transaction) : List UInt8 :=
  if allowWitness then serializeWithWitness tx else serializeNoWitness tx

/-- Every vector has at most as many elements as the reader takes, and the amounts are integers
of 64 bits. -/
structure Within (tx : Transaction) : Prop where
  vin : tx.vin.length ≤ maxSize
  scriptSigs : ∀ txin ∈ tx.vin, txin.scriptSig.length ≤ maxSize
  witnesses : ∀ txin ∈ tx.vin, txin.scriptWitness.length ≤ maxSize
  items : ∀ txin ∈ tx.vin, ∀ item ∈ txin.scriptWitness, item.length ≤ maxSize
  vout : tx.vout.length ≤ maxSize
  scripts : ∀ out ∈ tx.vout, out.scriptPubKey.length ≤ maxSize
  amounts : ∀ out ∈ tx.vout, -2 ^ 63 ≤ out.nValue ∧ out.nValue < 2 ^ 63
  bundle : tx.ctBundle.Within maxSize

/-- The transactions that the format is for: they have inputs, and a bundle only in version 4. -/
structure Serializable (tx : Transaction) : Prop extends Within tx where
  nonempty : tx.vin ≠ []
  bundled : tx.version ≠ pricoinCTVersion → tx.ctBundle = emptyBundle

/-- What a reader without witnesses takes from a transaction. -/
def withoutWitnesses (tx : Transaction) : Transaction :=
  { tx with vin := tx.vin.map TxIn.withoutWitness }

end Code

section Exactness

theorem toNat_of_read {n : ℕ} {s rest : List UInt8} (h : (uint 4).read s = some (n, rest)) :
    (UInt32.ofNat n).toNat = n := by
  rw [UInt32.toNat_ofNat']
  exact Nat.mod_eq_of_lt (lt_of_read_uint h)

theorem exact_prevoutRef : Exact prevoutRefCodec := by
  refine ((exact_block 32).pair (exact_uint 4)).via fun s p rest h => ?_
  obtain ⟨mid, -, hn⟩ := read_pair h
  rw [toNat_of_read hn]

theorem exact_txIn : Exact txInCodec := by
  refine (exact_prevoutRef.pair ((exact_byteVector maxSize).pair (exact_uint 4))).via
    fun s p rest h => ?_
  obtain ⟨mid, -, h⟩ := read_pair h
  obtain ⟨mid', -, hn⟩ := read_pair h
  rw [toNat_of_read hn]

theorem exact_txOut : Exact txOutCodec :=
  (exact_int64.pair (exact_byteVector maxSize)).via fun _ _ _ _ => rfl

theorem exact_signature (limit : ℕ) : Exact (signatureCodec limit) :=
  ((exact_block 33).pair ((exact_block 33).pair ((exact_block 32).pair
    ((exact_block 32).vector limit)))).via fun _ _ _ _ => rfl

theorem exact_ringInput (limit : ℕ) : Exact (ringInputCodec limit) :=
  ((exact_prevoutRef.vector limit).pair ((exact_block 33).pair (exact_signature limit))).via
    fun _ _ _ _ => rfl

theorem exact_output (limit : ℕ) : Exact (outputCodec limit) :=
  ((exact_block 33).pair ((exact_byteVector limit).pair ((exact_byteVector limit).pair
    ((exact_block 33).pair (exact_block 33))))).via fun _ _ _ _ => rfl

theorem exact_bundle (limit : ℕ) : Exact (bundleCodec limit) := by
  refine (((exact_block 33).vector limit).pair (((exact_ringInput limit).vector limit).pair
    (((exact_output limit).vector limit).pair (exact_uint 8)))).via fun s p rest h => ?_
  obtain ⟨_, -, h⟩ := read_pair h
  obtain ⟨_, -, h⟩ := read_pair h
  obtain ⟨_, -, hn⟩ := read_pair h
  have hfee : (UInt64.ofNat p.2.2.2).toNat = p.2.2.2 := by
    rw [UInt64.toNat_ofNat']
    exact Nat.mod_eq_of_lt (lt_of_read_uint hn)
  rw [hfee]

theorem exact_stack : Exact stackCodec := (exact_byteVector maxSize).vector maxSize

end Exactness

section Reading

variable {α : Type} {c : Codec α} {s rest : List UInt8}

@[simp] theorem take_eq_ok {p : α × List UInt8} : take c s = .ok p ↔ c.read s = some p := by
  unfold take
  cases c.read s with
  | none => simp
  | some q => simp

theorem take_of_reads {a b : α} (h : c.Reads a b) (rest : List UInt8) :
    take c (c.write a ++ rest) = .ok (b, rest) :=
  take_eq_ok.mpr (h rest)

def writeStacks (vin : List TxIn) : List UInt8 :=
  vin.flatMap fun txin => stackCodec.write txin.scriptWitness

theorem readStacks_writeStacks {vin : List TxIn}
    (hstacks : ∀ txin ∈ vin, stackCodec.Lossless txin.scriptWitness) (rest : List UInt8) :
    readStacks (vin.map TxIn.withoutWitness) (writeStacks vin ++ rest) = .ok (vin, rest) := by
  induction vin with
  | nil => rfl
  | cons txin vin ih =>
    obtain ⟨hfirst, hrest⟩ := forall_mem_cons.mp hstacks
    have hwrite : writeStacks (txin :: vin) ++ rest =
        stackCodec.write txin.scriptWitness ++ (writeStacks vin ++ rest) := by
      simp [writeStacks]
    rw [map_cons, readStacks, hwrite, bind_ok]
    refine ⟨_, take_of_reads hfirst _, bind_ok.mpr ⟨_, ih hrest, rfl⟩⟩

/-- What was read into the stacks is what would be written, and the inputs are the same but for
their stacks. -/
theorem eq_append_of_readStacks {vin vin' : List TxIn}
    (h : readStacks vin s = .ok (vin', rest)) :
    s = writeStacks vin' ++ rest ∧
      vin'.map TxIn.withoutWitness = vin.map TxIn.withoutWitness := by
  induction vin generalizing s vin' with
  | nil =>
    obtain ⟨rfl, rfl⟩ := Prod.mk.inj (Except.ok.inj h)
    exact ⟨rfl, rfl⟩
  | cons txin vin ih =>
    rw [readStacks, bind_ok] at h
    obtain ⟨⟨stack, mid⟩, hstack, h⟩ := h
    obtain ⟨⟨tail, rest'⟩, htail, h⟩ := bind_ok.mp h
    obtain ⟨rfl, rfl⟩ := Prod.mk.inj (Except.ok.inj h)
    obtain ⟨hmid, hvin⟩ := ih htail
    constructor
    · rw [exact_stack s stack mid (take_eq_ok.mp hstack), hmid]
      simp [writeStacks]
    · rw [map_cons, map_cons, hvin]
      rfl

end Reading

section RoundTrip

variable {tx : Transaction}

/-- The serialisation behind the lists of inputs and outputs and the witnesses. -/
def writeTail (tx : Transaction) : List UInt8 :=
  (uint 4).write tx.nLockTime.toNat ++
    if tx.version = pricoinCTVersion then writeBundle tx.ctBundle else []

theorem readTail (hbundle : tx.version ≠ pricoinCTVersion → tx.ctBundle = emptyBundle)
    (hwithin : tx.ctBundle.Within maxSize) (rest : List UInt8) :
    ∃ mid, take (uint 4) (writeTail tx ++ rest) = .ok (tx.nLockTime.toNat, mid) ∧
      readBundle tx.version mid = .ok (tx.ctBundle, rest) := by
  refine ⟨(if tx.version = pricoinCTVersion then writeBundle tx.ctBundle else []) ++ rest, ?_, ?_⟩
  · rw [writeTail, append_assoc]
    exact take_of_reads (lossless_uint tx.nLockTime.toNat_lt) _
  · unfold readBundle
    by_cases hversion : tx.version = pricoinCTVersion
    · rw [if_pos hversion, if_pos hversion]
      exact take_of_reads (lossless_bundle (by decide) hwithin) rest
    · rw [if_neg hversion, if_neg hversion, hbundle hversion]
      rfl

theorem serializeNoWitness_eq (tx : Transaction) :
    serializeNoWitness tx = (uint 4).write tx.version.toNat ++
      ((vector maxSize txInCodec).write tx.vin ++
        ((vector maxSize txOutCodec).write tx.vout ++ writeTail tx)) :=
  rfl

theorem serializeWithWitness_eq (h : anyWitness tx.vin = true) :
    serializeWithWitness tx = (uint 4).write tx.version.toNat ++
      ((vector maxSize txInCodec).write [] ++ (byte.write 1 ++
        ((vector maxSize txInCodec).write tx.vin ++ ((vector maxSize txOutCodec).write tx.vout ++
          (writeStacks tx.vin ++ writeTail tx))))) :=
  if_pos h

theorem serializeWithWitness_of_none (h : anyWitness tx.vin = false) :
    serializeWithWitness tx = serializeNoWitness tx :=
  if_neg (by rw [Transaction.hasWitness]; exact Bool.eq_false_iff.mp h)

theorem readInsOuts_basic {allowWitness : Bool} {vin : List TxIn} {vout : List TxOut}
    (hvin : (vin.isEmpty && allowWitness) = false)
    (hvout : (vector maxSize txOutCodec).Lossless vout) (rest : List UInt8) :
    readInsOuts allowWitness vin ((vector maxSize txOutCodec).write vout ++ rest) =
      .ok (0, vin, vout, rest) := by
  rw [readInsOuts, hvin, if_neg (by decide), bind_ok]
  exact ⟨_, take_of_reads hvout rest, rfl⟩

/-- The format without witnesses is read back where an empty list of inputs announces nothing. -/
theorem unserialize_basic {allowWitness : Bool}
    (hvin : (tx.vin.isEmpty && allowWitness) = false) (h : Within tx)
    (hbundle : tx.version ≠ pricoinCTVersion → tx.ctBundle = emptyBundle) (rest : List UInt8) :
    unserializeTransaction allowWitness (serializeNoWitness tx ++ rest) =
      .ok (withoutWitnesses tx, rest) := by
  have hempty : ((tx.vin.map TxIn.withoutWitness).isEmpty && allowWitness) = false := by
    rw [isEmpty_map, hvin]
  obtain ⟨mid, hlock, hread⟩ := readTail hbundle h.bundle rest
  have hversion : UInt32.ofNat tx.version.toNat = tx.version := UInt32.ofNat_toNat
  have hflags : readWitnesses allowWitness 0 (tx.vin.map TxIn.withoutWitness)
      (writeTail tx ++ rest) = .ok (0, tx.vin.map TxIn.withoutWitness, writeTail tx ++ rest) :=
    if_neg fun hset => hset.1 (by decide)
  rw [serializeNoWitness_eq, append_assoc, append_assoc, append_assoc,
    unserializeTransaction, bind_ok]
  refine ⟨_, take_of_reads (lossless_uint tx.version.toNat_lt) _, ?_⟩
  refine bind_ok.mpr ⟨_, take_of_reads (reads_vin h.vin h.scriptSigs) _, ?_⟩
  refine bind_ok.mpr ⟨_, readInsOuts_basic hempty
    (lossless_vout h.vout h.scripts h.amounts) _, ?_⟩
  refine bind_ok.mpr ⟨_, hflags, ?_⟩
  dsimp only
  rw [if_neg (by decide), hversion]
  refine bind_ok.mpr ⟨_, hlock, bind_ok.mpr ⟨_, hread, ?_⟩⟩
  rw [UInt32.ofNat_toNat]
  rfl

theorem lossless_stack {stack : List (List UInt8)} (hcount : stack.length ≤ maxSize)
    (hitems : ∀ item ∈ stack, item.length ≤ maxSize) : stackCodec.Lossless stack := by
  have h64 : maxSize < 2 ^ 64 := by decide
  refine lossless_vector hcount (by omega) fun item hitem => ?_
  have hlength := hitems item hitem
  exact lossless_byteVector hlength (by omega)

/-- The extended format is read back with the witnesses. -/
theorem unserialize_extended (hany : anyWitness tx.vin = true) (h : Within tx)
    (hbundle : tx.version ≠ pricoinCTVersion → tx.ctBundle = emptyBundle) (rest : List UInt8) :
    unserializeTransaction true (serializeWithWitness tx ++ rest) = .ok (tx, rest) := by
  obtain ⟨mid, hlock, hread⟩ := readTail hbundle h.bundle rest
  have hversion : UInt32.ofNat tx.version.toNat = tx.version := UInt32.ofNat_toNat
  have hdummy : (vector maxSize txInCodec).Reads [] [] := reads_vin (Nat.zero_le _) (by simp)
  have hstacks : readStacks (tx.vin.map TxIn.withoutWitness)
      (writeStacks tx.vin ++ (writeTail tx ++ rest)) = .ok (tx.vin, writeTail tx ++ rest) :=
    readStacks_writeStacks (fun txin htxin =>
      lossless_stack (h.witnesses txin htxin) (h.items txin htxin)) _
  have hins : readInsOuts true [] (byte.write 1 ++ ((vector maxSize txInCodec).write tx.vin ++
      ((vector maxSize txOutCodec).write tx.vout ++
        (writeStacks tx.vin ++ (writeTail tx ++ rest))))) =
      .ok (1, tx.vin.map TxIn.withoutWitness, tx.vout,
        writeStacks tx.vin ++ (writeTail tx ++ rest)) := by
    rw [readInsOuts, if_pos (by decide), bind_ok]
    refine ⟨_, take_of_reads (lossless_byte 1) _, ?_⟩
    dsimp only
    rw [if_pos (by decide), bind_ok]
    refine ⟨_, take_of_reads (reads_vin h.vin h.scriptSigs) _, ?_⟩
    exact bind_ok.mpr ⟨_, take_of_reads (lossless_vout h.vout h.scripts h.amounts) _, rfl⟩
  have hwitnesses : readWitnesses true 1 (tx.vin.map TxIn.withoutWitness)
      (writeStacks tx.vin ++ (writeTail tx ++ rest)) = .ok (0, tx.vin, writeTail tx ++ rest) := by
    rw [readWitnesses, if_pos (by decide), bind_ok]
    refine ⟨_, hstacks, ?_⟩
    dsimp only
    rw [hany, if_neg (by decide)]
    rfl
  rw [serializeWithWitness_eq hany]
  simp only [append_assoc]
  rw [unserializeTransaction, bind_ok]
  refine ⟨_, take_of_reads (lossless_uint tx.version.toNat_lt) _, ?_⟩
  refine bind_ok.mpr ⟨_, take_of_reads hdummy _, bind_ok.mpr ⟨_, hins, ?_⟩⟩
  refine bind_ok.mpr ⟨_, hwitnesses, ?_⟩
  dsimp only
  rw [if_neg (by decide), hversion]
  refine bind_ok.mpr ⟨_, hlock, bind_ok.mpr ⟨_, hread, ?_⟩⟩
  rw [UInt32.ofNat_toNat]

end RoundTrip

section OneEncoding

variable {allowWitness : Bool} {flags : UInt8} {vin vin' : List TxIn} {vout : List TxOut}
variable {s rest : List UInt8} {tx : Transaction}

theorem anyWitness_of_read (h : (vector maxSize txInCodec).read s = some (vin, rest)) :
    anyWitness vin = false := by
  have hempty : ∀ txin ∈ vin, txin.scriptWitness = [] := by
    refine forall_mem_of_read_vector (fun s txin rest h => ?_) h
    obtain ⟨p, -, hp⟩ := Option.map_eq_some_iff.mp h
    obtain ⟨rfl, -⟩ := Prod.mk.inj hp
    rfl
  rw [anyWitness, any_eq_false]
  intro txin htxin
  simp [hempty txin htxin]

/-- No flags, and the outputs follow; or the inputs and the outputs follow the flags. -/
theorem of_readInsOuts
    (h : readInsOuts allowWitness vin s = .ok (flags, vin', vout, rest)) :
    (flags = 0 ∧ vin' = vin ∧ s = (vector maxSize txOutCodec).write vout ++ rest) ∨
    (flags ≠ 0 ∧ vin = [] ∧ s = byte.write flags ++ ((vector maxSize txInCodec).write vin' ++
      ((vector maxSize txOutCodec).write vout ++ rest))) := by
  have hvout := exact_txOut.vector maxSize
  unfold readInsOuts at h
  split at h
  · rename_i hempty
    obtain ⟨⟨flags', mid⟩, hflags, h⟩ := bind_ok.mp h
    have hs := exact_byte _ _ _ (take_eq_ok.mp hflags)
    dsimp only at h
    split at h
    · rename_i hne
      obtain ⟨⟨ins, mid'⟩, hins, h⟩ := bind_ok.mp h
      obtain ⟨⟨outs, mid''⟩, houts, h⟩ := bind_ok.mp h
      obtain ⟨rfl, rfl, rfl, rfl⟩ := by simpa only [Except.ok.injEq, Prod.mk.injEq] using h
      rw [Bool.and_eq_true, List.isEmpty_iff] at hempty
      have hmid := (exact_txIn.vector maxSize) mid ins mid' (take_eq_ok.mp hins)
      have hmid' := hvout mid' outs mid'' (take_eq_ok.mp houts)
      exact .inr ⟨hne, hempty.1, by rw [hs, hmid, hmid']⟩
    · rename_i hzero
      obtain ⟨rfl, rfl, rfl, rfl⟩ := by simpa only [Except.ok.injEq, Prod.mk.injEq] using h
      -- the flags stand where the count of the outputs would
      refine .inl ⟨not_not.mp hzero, rfl, ?_⟩
      rw [hs, not_not.mp hzero]
      rfl
  · obtain ⟨⟨outs, mid⟩, houts, h⟩ := bind_ok.mp h
    obtain ⟨rfl, rfl, rfl, rfl⟩ := by simpa only [Except.ok.injEq, Prod.mk.injEq] using h
    exact .inl ⟨rfl, rfl, hvout _ _ _ (take_eq_ok.mp houts)⟩

/-- The only flag that is known is that of the witnesses. -/
theorem of_readWitnesses
    (h : readWitnesses allowWitness flags vin s = .ok (0, vin', rest)) :
    (flags = 0 ∧ vin' = vin ∧ s = rest) ∨
    (flags = 1 ∧ allowWitness = true ∧ anyWitness vin' = true ∧ s = writeStacks vin' ++ rest ∧
      vin'.map TxIn.withoutWitness = vin.map TxIn.withoutWitness) := by
  unfold readWitnesses at h
  split at h
  · rename_i hset
    obtain ⟨⟨ins, mid⟩, hins, h⟩ := bind_ok.mp h
    dsimp only at h
    split at h
    · contradiction
    · rename_i hany
      obtain ⟨hflags, rfl, rfl⟩ := by simpa only [Except.ok.injEq, Prod.mk.injEq] using h
      have hone : flags = 1 := by
        have hback := congrArg (· ^^^ 1) hflags
        simpa [UInt8.xor_assoc] using hback
      obtain ⟨hs, hmap⟩ := eq_append_of_readStacks hins
      exact .inr ⟨hone, hset.2, by simpa using hany, hs, hmap⟩
  · obtain ⟨rfl, rfl, rfl⟩ := by simpa only [Except.ok.injEq, Prod.mk.injEq] using h
    exact .inl ⟨rfl, rfl, rfl⟩

theorem write_vin_congr (h : vin'.map TxIn.withoutWitness = vin.map TxIn.withoutWitness) :
    (vector maxSize txInCodec).write vin' = (vector maxSize txInCodec).write vin := by
  have hwrite : ∀ l : List TxIn, (vector maxSize txInCodec).write l =
      (vector maxSize txInCodec).write (l.map TxIn.withoutWitness) := by
    intro l
    simp only [vector, length_map, flatMap_map]
    rfl
  rw [hwrite vin', hwrite vin, h]

theorem eq_append_of_readTail {version : ℕ} {nLockTime : ℕ} {mid : List UInt8} {bundle : CTBundle}
    (hlock : take (uint 4) s = .ok (nLockTime, mid))
    (hbundle : readBundle (UInt32.ofNat version) mid = .ok (bundle, rest)) :
    s = writeTail ⟨UInt32.ofNat version, vin, vout, UInt32.ofNat nLockTime, bundle⟩ ++ rest := by
  rw [take_eq_ok] at hlock
  unfold writeTail
  dsimp only
  rw [exact_uint 4 _ _ _ hlock, toNat_of_read hlock, append_assoc]
  unfold readBundle at hbundle
  split at hbundle
  · rename_i hversion
    rw [if_pos hversion, exact_bundle maxSize _ _ _ (take_eq_ok.mp hbundle)]
    rfl
  · rename_i hversion
    obtain ⟨-, rfl⟩ := Prod.mk.inj (Except.ok.inj hbundle)
    rw [if_neg hversion]
    rfl

/-- A stream begins with the serialisation of the transaction that is read from it. -/
theorem eq_append_of_unserialize
    (h : unserializeTransaction allowWitness s = .ok (tx, rest)) :
    s = serializeTransaction allowWitness tx ++ rest := by
  obtain ⟨⟨version, s₁⟩, hversion, h⟩ := bind_ok.mp h
  obtain ⟨⟨vin₀, s₂⟩, hvin, h⟩ := bind_ok.mp h
  obtain ⟨⟨flags, vin, vout, s₃⟩, hins, h⟩ := bind_ok.mp h
  obtain ⟨⟨flags', vin', s₄⟩, hwitnesses, h⟩ := bind_ok.mp h
  dsimp only at h
  split at h
  · contradiction
  rename_i hzero
  obtain rfl : flags' = 0 := not_not.mp hzero
  obtain ⟨⟨nLockTime, s₅⟩, hlock, h⟩ := bind_ok.mp h
  obtain ⟨⟨bundle, s₆⟩, hbundle, h⟩ := bind_ok.mp h
  obtain ⟨rfl, rfl⟩ := Prod.mk.inj (Except.ok.inj h)
  rw [take_eq_ok] at hversion hvin
  have htail := @eq_append_of_readTail vin' vout _ _ _ _ _ _ hlock hbundle
  have hs := exact_uint 4 _ _ _ hversion
  have hs₁ := (exact_txIn.vector maxSize) _ _ _ hvin
  rcases of_readWitnesses hwitnesses with ⟨rfl, rfl, rfl⟩ | ⟨rfl, rfl, hany, hs₃, hmap⟩
  · rcases of_readInsOuts hins with ⟨-, rfl, hs₂⟩ | ⟨hne, -⟩
    · have hnone := anyWitness_of_read hvin
      have hbasic : serializeTransaction allowWitness
          ⟨UInt32.ofNat version, vin', vout, UInt32.ofNat nLockTime, bundle⟩ =
          serializeNoWitness
            ⟨UInt32.ofNat version, vin', vout, UInt32.ofNat nLockTime, bundle⟩ := by
        unfold serializeTransaction
        split
        · exact serializeWithWitness_of_none hnone
        · rfl
      rw [hbasic, serializeNoWitness_eq]
      dsimp only
      rw [hs, toNat_of_read hversion, hs₁, hs₂, htail]
      simp only [append_assoc]
    · exact absurd rfl hne
  · rcases of_readInsOuts hins with ⟨habs, -⟩ | ⟨-, rfl, hs₂⟩
    · exact absurd habs (by decide)
    · rw [serializeTransaction, if_pos rfl, serializeWithWitness_eq hany]
      dsimp only
      rw [hs, toNat_of_read hversion, hs₁, hs₂, hs₃, htail, write_vin_congr hmap]
      simp only [append_assoc]

end OneEncoding

section Main

theorem withoutWitnesses_of_none {tx : Transaction} (h : anyWitness tx.vin = false) :
    withoutWitnesses tx = tx := by
  have hmap : tx.vin.map TxIn.withoutWitness = tx.vin := by
    refine (map_congr_left fun txin htxin => ?_).trans (map_id tx.vin)
    have hempty : txin.scriptWitness = [] := by
      simpa using any_eq_false.mp h txin htxin
    rw [TxIn.withoutWitness, ← hempty]
    rfl
  rw [withoutWitnesses, hmap]

/-- A transaction is read back in both modes, without its witnesses in the mode that does not
write them. -/
theorem unserialize_serialize (allowWitness : Bool) {tx : Transaction} (h : Serializable tx) :
    unserializeTransaction allowWitness (serializeTransaction allowWitness tx) =
      .ok (if allowWitness then tx else withoutWitnesses tx, []) := by
  have hvin : ∀ b : Bool, (tx.vin.isEmpty && b) = false := by
    intro b
    rw [isEmpty_eq_false_iff.mpr h.nonempty, Bool.false_and]
  cases allowWitness with
  | false =>
    have hread := unserialize_basic (hvin false) h.toWithin h.bundled []
    rw [append_nil] at hread
    exact hread
  | true =>
    change unserializeTransaction true (serializeWithWitness tx) = .ok (tx, [])
    cases hany : anyWitness tx.vin with
    | false =>
      have hread := unserialize_basic (hvin true) h.toWithin h.bundled []
      rw [append_nil, withoutWitnesses_of_none hany] at hread
      rw [serializeWithWitness_of_none hany, hread]
    | true =>
      have hread := unserialize_extended hany h.toWithin h.bundled []
      rwa [append_nil] at hread

/-- Reading undoes writing, writing undoes reading, transactions with one serialisation are the
same, and so are serialisations of one transaction. -/
theorem reading_and_writing_inverse (allowWitness : Bool) :
    (∀ tx, Serializable tx →
      unserializeTransaction allowWitness (serializeTransaction allowWitness tx) =
        .ok (if allowWitness then tx else withoutWitnesses tx, [])) ∧
    (∀ s tx, unserializeTransaction allowWitness s = .ok (tx, []) →
      serializeTransaction allowWitness tx = s) ∧
    (∀ tx tx', Serializable tx → Serializable tx' →
      serializeTransaction allowWitness tx = serializeTransaction allowWitness tx' →
      (if allowWitness then tx = tx' else withoutWitnesses tx = withoutWitnesses tx')) ∧
    ∀ s t tx, unserializeTransaction allowWitness s = .ok (tx, []) →
      unserializeTransaction allowWitness t = .ok (tx, []) → s = t := by
  have hexact : ∀ s tx, unserializeTransaction allowWitness s = .ok (tx, []) →
      serializeTransaction allowWitness tx = s := by
    intro s tx h
    rw [eq_append_of_unserialize h, append_nil]
  refine ⟨fun tx h => unserialize_serialize allowWitness h, hexact, ?_, ?_⟩
  · intro tx tx' h h' heq
    have hread := unserialize_serialize allowWitness h
    rw [heq, unserialize_serialize allowWitness h'] at hread
    have hsame := (Prod.mk.inj (Except.ok.inj hread)).1
    cases allowWitness with
    | false => exact hsame.symm
    | true => exact hsame.symm
  · intro s t tx hs ht
    rw [← hexact s tx hs, ← hexact t tx ht]

def sampleOutput : CTOutput :=
  ⟨.replicate 33 8, [1, 2], [0, 20], .replicate 33 2,
    .replicate 33 3⟩

def sampleRingInput : CTRingInput :=
  ⟨[⟨nullHash, 1⟩, ⟨nullHash, 2⟩], .replicate 33 9, emptySignature⟩

/-- A transaction with a witness, a ring and a confidential output. -/
def sampleTransaction : Transaction :=
  ⟨pricoinCTVersion, [⟨⟨nullHash, 7⟩, [81], 0xFFFFFFFE, [[1], []]⟩], [⟨0, [0, 20]⟩], 5,
    ⟨[], [sampleRingInput], [sampleOutput], 1000⟩⟩

theorem serializable_sample : Serializable sampleTransaction where
  vin := by decide
  scriptSigs := by decide
  witnesses := by decide
  items := by decide
  vout := by decide
  scripts := by decide
  amounts := by decide
  bundle := ⟨by decide, by decide, by decide, by decide, by decide⟩
  nonempty := by decide
  bundled h := absurd rfl h

theorem reading_and_writing_inverse_sample :
    unserializeTransaction true (serializeTransaction true sampleTransaction) =
      .ok (sampleTransaction, []) ∧
    unserializeTransaction false (serializeTransaction false sampleTransaction) =
      .ok (withoutWitnesses sampleTransaction, []) ∧
    serializeTransaction true sampleTransaction ≠ serializeTransaction false sampleTransaction := by
  refine ⟨(reading_and_writing_inverse true).1 _ serializable_sample,
    (reading_and_writing_inverse false).1 _ serializable_sample, ?_⟩
  decide +kernel

end Main

end Pricoin.TransactionCodec
