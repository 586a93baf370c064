import Pricoin.DurableRecords
import Pricoin.StealthScan

/-!
The recovery index of a wallet: the confidential outputs that were recognised on the
active chain, up to the last block that was scanned. It is extended from where it stands,
dropped when that block has left the chain, and kept in the database across restarts.
A pass looks for the subaddresses that were in reach when it began. What it finds brings
more of them into reach, and the blocks that it has passed are not looked at again.
-/
namespace Pricoin.RecoveryIndex

open ByteStreams KeyImageFile Codecs Codec RecordCodecs Transactions Coins DurableRecords
open List Option
open StealthScan Runs
open Std (TransCmp OrientedCmp LawfulEqCmp ReflCmp ExtTreeMap)

variable {c c' : ℕ} {lookup : SubaddressLookup}

/-- Outpoints are ordered by hash, then by index. -/
def compareOutPoint (a b : PrevoutRef) : Ordering :=
  (compareBytes a.hash b.hash).then (compare a.n b.n)

instance : TransCmp fun a b : PrevoutRef => compareBytes a.hash b.hash where
  eq_swap {a b} := @OrientedCmp.eq_swap _ (@compareBytes 32) _ a.hash b.hash
  isLE_trans {a b c} := @TransCmp.isLE_trans _ (@compareBytes 32) _ a.hash b.hash c.hash

instance : TransCmp fun a b : PrevoutRef => compare a.n b.n where
  eq_swap {a b} := @OrientedCmp.eq_swap UInt32 compare _ a.n b.n
  isLE_trans {a b c} := @TransCmp.isLE_trans UInt32 compare _ a.n b.n c.n

instance : TransCmp compareOutPoint :=
  inferInstanceAs (TransCmp (compareLex (fun a b : PrevoutRef => compareBytes a.hash b.hash)
    fun a b => compare a.n b.n))

instance : LawfulEqCmp compareOutPoint where
  eq_of_compare {a b} h := by
    obtain ⟨hhash, hn⟩ := Ordering.then_eq_eq.mp h
    obtain ⟨hash, n⟩ := a
    obtain ⟨hash', n'⟩ := b
    obtain rfl : hash = hash' := LawfulEqCmp.eq_of_compare hhash
    obtain rfl : n = n' := LawfulEqCmp.eq_of_compare hn
    rfl

structure CachedRecovery where
  outputIndex : UInt32
  value : Int64
  keyImage : Point
  height : Int32
  subaddressIndex : UInt32
  deriving DecidableEq

abbrev Entries := ExtTreeMap PrevoutRef CachedRecovery compareOutPoint

/-- The index in memory. The load of the stored index is attempted when the index is made, so
there is no flag for it. -/
structure Index where
  entries : Entries
  lastScannedHeight : ℤ
  lastScannedHash : Uint256

def emptyIndex : Index := ⟨∅, -1, nullHash⟩

section Storage

def kRecoveryCacheInnerVer : UInt8 := 0x02

/-- The largest count of entries that is read back. -/
def maxStoredEntries : ℕ := 1000000

def uint32 : Codec UInt32 := (uint 4).via UInt32.toNat UInt32.ofNat

def entryCodec : Codec (PrevoutRef × CachedRecovery) :=
  (prevoutRefCodec.pair (uint32.pair (sint64.pair ((block 33).pair (sint32.pair uint32))))).via
    (fun e => (e.1, e.2.outputIndex, e.2.value, e.2.keyImage, e.2.height, e.2.subaddressIndex))
    (fun p => (p.1, ⟨p.2.1, p.2.2.1, p.2.2.2.1, p.2.2.2.2.1, p.2.2.2.2.2⟩))

def serializeRecoveryIndex (index : Index) : List UInt8 :=
  byte.write kRecoveryCacheInnerVer ++
    (sint32.write (Int32.ofInt index.lastScannedHeight) ++
      ((block 32).write index.lastScannedHash ++
        (writeCompactSize index.entries.size ++ index.entries.toList.flatMap entryCodec.write)))

/-- Reads into a new index, and says whether that worked. A payload that breaks off leaves the
index empty. One with too many entries leaves it with the height and the hash that were read, and
the caller does not look at the answer. -/
def deserializeRecoveryIndex (payload : List UInt8) : Bool × Index :=
  match byte.read payload with
  | none => (false, emptyIndex)
  | some (innerVer, rest) =>
    if innerVer ≠ kRecoveryCacheInnerVer then (false, emptyIndex)
    else match sint32.read rest with
      | none => (false, emptyIndex)
      | some (height, rest) =>
        match (block 32).read rest with
        | none => (false, emptyIndex)
        | some (hash, rest) =>
          match readCompactSize maxSize rest with
          | none => (false, emptyIndex)
          | some (n, rest) =>
            if maxStoredEntries < n then (false, ⟨∅, height.toInt, hash⟩)
            else match entryCodec.readMany n rest with
              | none => (false, emptyIndex)
              | some (entries, _) =>
                (true, ⟨(∅ : Entries).insertMany entries, height.toInt, hash⟩)

theorem lossless_uint32 (n : UInt32) : uint32.Lossless n :=
  Lossless.via (lossless_uint n.toNat_lt) UInt32.ofNat_toNat

theorem lossless_sint32 (n : Int32) : sint32.Lossless n := by
  refine fits_sint32 n ?_
  simp [sint32, Codec.via, uint, maxSize]

theorem lossless_sint64 (n : Int64) : sint64.Lossless n := by
  refine fits_sint64 n ?_
  simp [sint64, int64, Codec.via, uint, maxSize]

theorem lossless_entryCodec (e : PrevoutRef × CachedRecovery) : entryCodec.Lossless e :=
  Lossless.via ((lossless_prevoutRef e.1).pair ((lossless_uint32 _).pair ((lossless_sint64 _).pair
    ((lossless_block _).pair ((lossless_sint32 _).pair (lossless_uint32 _)))))) rfl

theorem insertMany_toList (entries : Entries) :
    (∅ : Entries).insertMany entries.toList = entries := by
  rw [← ExtTreeMap.ofList_eq_insertMany_empty]
  apply ExtTreeMap.ext_getElem?
  intro k
  cases h : entries[k]? with
  | none =>
    apply ExtTreeMap.getElem?_ofList_of_contains_eq_false
    rw [ExtTreeMap.map_fst_toList_eq_keys, ExtTreeMap.contains_keys]
    have hnot : k ∉ entries := by simpa using h
    exact Bool.eq_false_iff.mpr fun hk => hnot (ExtTreeMap.mem_iff_contains.mpr hk)
  | some v =>
    exact ExtTreeMap.getElem?_ofList_of_mem ReflCmp.compare_self
      ExtTreeMap.distinct_keys_toList (ExtTreeMap.mem_toList_iff_getElem?_eq_some.mpr h)

/-- What is read of a stored index, up to its entries. -/
theorem deserialize_serialize_eq {index : Index} (hlow : -2 ^ 31 ≤ index.lastScannedHeight)
    (hhigh : index.lastScannedHeight < 2 ^ 31) (hsize : index.entries.size ≤ maxSize) :
    deserializeRecoveryIndex (serializeRecoveryIndex index) =
      if maxStoredEntries < index.entries.size then
        (false, { index with entries := ∅ })
      else (true, index) := by
  have hheight : (Int32.ofInt index.lastScannedHeight).toInt = index.lastScannedHeight :=
    Int32.toInt_ofInt_of_le hlow hhigh
  have hmany : entryCodec.readMany index.entries.size
      (index.entries.toList.flatMap entryCodec.write) = some (index.entries.toList, []) := by
    have happend := entryCodec.readMany_append
      (forall₂_same.mpr fun e (_ : e ∈ index.entries.toList) => lossless_entryCodec e) []
    rwa [append_nil, ExtTreeMap.length_toList] at happend
  have hcount := lossless_compactSize hsize (lt_of_le_of_lt hsize (by decide))
    (index.entries.toList.flatMap entryCodec.write)
  have hcount' : readCompactSize maxSize (writeCompactSize index.entries.size ++
      index.entries.toList.flatMap entryCodec.write) =
      some (index.entries.size, index.entries.toList.flatMap entryCodec.write) := hcount
  simp only [deserializeRecoveryIndex, serializeRecoveryIndex, lossless_byte _ _,
    lossless_sint32 _ _, lossless_block _ _, ne_eq, not_true_eq_false, if_false, hcount', hmany,
    hheight, insertMany_toList]

end Storage

section Chains

/-- The blocks that a node has. The hash of a block is that of no other. -/
structure BlockTree (β : Type) where
  vtx : β → List Transaction
  getHash : β → BlockHash
  prevHash : β → BlockHash
  getHash_injective : Function.Injective getHash

variable {β : Type}

/-- Each block names the one before it. -/
def BlockTree.Linked (T : BlockTree β) (blocks : List β) : Prop :=
  blocks.IsChain fun a b => T.prevHash b = T.getHash a

/-- The blocks of the active chain from the genesis block on. Heights are of type `int`. -/
structure ActiveChain (T : BlockTree β) where
  blocks : List β
  linked : T.Linked blocks
  length_le : blocks.length ≤ 2 ^ 31

def ActiveChain.tipHeight {T : BlockTree β} (chain : ActiveChain T) : ℤ := chain.blocks.length - 1

/-- A linked list of blocks is known from its length and its last hash. -/
theorem BlockTree.Linked.eq_of_last {T : BlockTree β} {bs cs : List β} (hbs : T.Linked bs)
    (hcs : T.Linked cs) (hlength : bs.length = cs.length)
    (hlast : bs.getLast?.map T.getHash = cs.getLast?.map T.getHash) : bs = cs := by
  induction bs using List.reverseRecOn generalizing cs with
  | nil => exact (eq_nil_of_length_eq_zero hlength.symm).symm
  | append_singleton bs b ih =>
    rcases eq_nil_or_concat' cs with rfl | ⟨cs, c, rfl⟩
    · simp at hlength
    obtain rfl : b = c := T.getHash_injective (by simpa using hlast)
    congr 1
    -- the hash of the block before is in the last block
    have hprev : ∀ {ds : List β}, T.Linked (ds ++ [b]) → ∀ d ∈ ds.getLast?,
        T.prevHash b = T.getHash d := by
      intro ds hds d hd
      exact (isChain_append.mp hds).2.2 d hd b rfl
    have hlength' : bs.length = cs.length := by simpa using hlength
    refine ih (isChain_append.mp hbs).1 (isChain_append.mp hcs).1 hlength' ?_
    cases hb : bs.getLast? with
    | none =>
      obtain rfl := List.getLast?_eq_none_iff.mp hb
      obtain rfl := eq_nil_of_length_eq_zero hlength'.symm
      rfl
    | some d =>
      cases hc : cs.getLast? with
      | none =>
        obtain rfl := List.getLast?_eq_none_iff.mp hc
        obtain rfl := eq_nil_of_length_eq_zero hlength'
        simp at hb
      | some d' =>
        rw [map_some, map_some, ← hprev hbs d hb, ← hprev hcs d' hc]

end Chains

section Model

variable {β ι : Type} {T : BlockTree β} (crypto : Crypto) (lib : ScanLibrary)
variable (id : Identity Point) (seals : Sealing ι)

/-- The outputs of a block that are recognised, each with its transaction. -/
def blockRecoveries (lookup : SubaddressLookup) (block : β) : List (Txid × RecoveredOutput) :=
  (T.vtx block).flatMap fun tx =>
    if tx.version ≠ pricoinCTVersion then []
    else (List.range tx.vout.length).filterMap fun i =>
      (tryRecoverCTOutput lib id lookup tx (UInt32.ofNat i)).map fun rec => (crypto.txid tx, rec)

def cachedRecovery (h : ℕ) (rec : RecoveredOutput) : CachedRecovery where
  outputIndex := rec.outputIndex
  value := rec.value
  keyImage := rec.keyImage
  height := Int32.ofInt h
  subaddressIndex := UInt32.ofNat rec.subaddressIndex

def recordRecovery (h : ℕ) (entries : Entries) (p : Txid × RecoveredOutput) : Entries :=
  entries.insert ⟨p.1, p.2.outputIndex⟩ (cachedRecovery h p.2)

/-- One pass over blocks, the first of them at a height. -/
def scanEntries (T : BlockTree β) (lookup : SubaddressLookup) : ℕ → List β → Entries → Entries
  | _, [], entries => entries
  | h, block :: blocks, entries =>
    scanEntries T lookup (h + 1) blocks
      ((blockRecoveries (T := T) crypto lib id lookup block).foldl (recordRecovery h) entries)

/-- One pass over the whole chain. -/
def fullScan (chain : ActiveChain T) (lookup : SubaddressLookup) : Entries :=
  scanEntries crypto lib id T lookup 0 chain.blocks ∅

/-- The last subaddress in use, in memory and in the database. -/
structure Subaddresses where
  cached : Option ℕ
  stored : Option ℕ

/-- What a call meets: whether records can be decrypted, what they are encrypted with, whether
there is an identity, which blocks can be read and which rows can be written. -/
structure Conditions (ι : Type) where
  opens : Bool
  seed : Option ι
  identity : Bool
  readable : ℕ → Bool
  stateWrites : ℕ → Bool
  labelWrites : Bool
  cacheWrites : Bool

namespace Subaddresses

/-- The index as a load gives it. -/
def maxUsedIndex (s : Subaddresses) : ℕ := s.cached.getD (s.stored.getD 0)

/-- Nothing when the state cannot be decrypted. -/
def loadStateCached (opens : Bool) (s : Subaddresses) : Option Subaddresses :=
  match s.cached, s.stored with
  | some _, _ => some s
  | none, none => some { s with cached := some 0 }
  | none, some n => if opens then some { s with cached := some n } else none

def noteSubaddressDiscovered (env : Conditions ι) (s : Subaddresses) (discovered : ℕ) :
    Subaddresses :=
  if discovered ≤ s.maxUsedIndex then s
  else
    { cached := some discovered
      stored :=
        if env.seed.isSome && env.stateWrites discovered then some discovered else s.stored }

end Subaddresses

/-- A wallet on a chain: the index in memory, the one in the database with what it was encrypted
with, and the subaddresses. -/
structure Wallet (T : BlockTree β) (ι : Type) where
  chain : ActiveChain T
  index : Option Index
  cache : Option (Index × ι)
  subaddresses : Subaddresses

/-- The index that a first call starts from. A row above the size limit is not read, and whether
the payload was good is not looked at. -/
def loadPersistedRecoveryIndex (env : Conditions ι) (w : Wallet T ι) : Index :=
  match w.cache with
  | none => emptyIndex
  | some (index, seed) =>
    let blob := seals.encrypt seed (serializeRecoveryIndex index)
    if blob = [] ∨ maxSize < blob.length ∨ env.opens = false then emptyIndex
    else match seals.decrypt blob with
      | none => emptyIndex
      | some payload => (deserializeRecoveryIndex payload).2

def persistRecoveryIndex (env : Conditions ι) (index : Index) (w : Wallet T ι) : Wallet T ι :=
  match env.seed with
  | none => w
  | some seed => if env.cacheWrites then { w with cache := some (index, seed) } else w

/-- The last scanned block has left the chain. -/
def NeedsFullRescan (chain : ActiveChain T) (index : Index) : Prop :=
  index.lastScannedHeight > chain.tipHeight ∨
    0 ≤ index.lastScannedHeight ∧
      (chain.blocks[index.lastScannedHeight.toNat]?).map T.getHash ≠ some index.lastScannedHash

instance (chain : ActiveChain T) (index : Index) : Decidable (NeedsFullRescan chain index) :=
  inferInstanceAs (Decidable (_ ∨ _ ∧ _))

structure Scan where
  index : Index
  subaddresses : Subaddresses
  newBlocks : ℕ

def scanBlock (T : BlockTree β) (env : Conditions ι) (lookup : SubaddressLookup) (h : ℕ)
    (block : β) (s : Scan) : Scan :=
  let recovered := blockRecoveries (T := T) crypto lib id lookup block
  { index :=
      { entries := recovered.foldl (recordRecovery h) s.index.entries
        lastScannedHeight := h
        lastScannedHash := T.getHash block }
    subaddresses := (recovered.map fun p => p.2.subaddressIndex).foldl
      (Subaddresses.noteSubaddressDiscovered env) s.subaddresses
    newBlocks := s.newBlocks + 1 }

/-- The loop stops at the first block that cannot be read. -/
def scanBlocks (T : BlockTree β) (env : Conditions ι) (lookup : SubaddressLookup) :
    ℕ → List β → Scan → Scan
  | _, [], s => s
  | h, block :: blocks, s =>
    if env.readable h then
      scanBlocks T env lookup (h + 1) blocks (scanBlock crypto lib id T env lookup h block s)
    else s

/-- The index that is returned, unless the call throws, and the wallet after it. For the largest
subaddress indices the loop that builds the lookup does not end. -/
def syncRecoveryIndex (env : Conditions ι) (w : Wallet T ι) : Option Index × Wallet T ι :=
  let index := w.index.getD (loadPersistedRecoveryIndex seals env w)
  let tipHeight := w.chain.tipHeight
  if tipHeight < 0 then (some index, { w with index := some index })
  else
    let index := if NeedsFullRescan w.chain index then emptyIndex else index
    let w := { w with index := some index }
    if tipHeight ≤ index.lastScannedHeight then (some index, w)
    else if env.identity = false then (none, w)
    else match w.subaddresses.loadStateCached env.opens with
      | none => (none, w)
      | some subaddresses =>
        let w := { w with subaddresses }
        if 2 ^ 32 - 1 ≤ subaddresses.maxUsedIndex + kSubaddressGapLimit then (none, w)
        else
          let lookup := buildSubaddressLookup lib id subaddresses.maxUsedIndex
          let start := (index.lastScannedHeight + 1).toNat
          let scan := scanBlocks crypto lib id T env lookup start (w.chain.blocks.drop start)
            ⟨index, subaddresses, 0⟩
          let w := { w with index := some scan.index, subaddresses := scan.subaddresses }
          (some scan.index,
            if 0 < scan.newBlocks then persistRecoveryIndex env scan.index w else w)

/-- The next subaddress, with or without a label. What is in memory changes when all is written. -/
def allocateNextSubaddress (env : Conditions ι) (hasLabel : Bool) (s : Subaddresses) :
    Subaddresses :=
  if env.identity = false then s
  else match s.loadStateCached env.opens with
    | none => s
    | some s =>
      let newIndex := s.maxUsedIndex + 1
      -- the next index would be zero
      if newIndex = 2 ^ 32 then s
      else match lib.deriveSubaddress id.view id.spend newIndex with
        | none => s
        | some _ =>
          if env.seed.isSome && env.stateWrites newIndex then
            if hasLabel && !env.labelWrites then { s with stored := some newIndex }
            else { cached := some newIndex, stored := some newIndex }
          else s

/-- A new active chain may extend the old one or leave it at any block. -/
inductive Event (T : BlockTree β) (ι : Type) where
  | newChain (chain : ActiveChain T)
  | sync (env : Conditions ι)
  | allocate (env : Conditions ι) (hasLabel : Bool)
  | restart

def step (w : Wallet T ι) : Event T ι → Wallet T ι
  | .newChain chain => { w with chain }
  | .sync env => (syncRecoveryIndex crypto lib id seals env w).2
  | .allocate env hasLabel =>
    { w with subaddresses := allocateNextSubaddress lib id env hasLabel w.subaddresses }
  | .restart =>
    { w with index := none, subaddresses := { w.subaddresses with cached := none } }

end Model

section Coverage

variable {β ι : Type} {T : BlockTree β} {crypto : Crypto} {lib : ScanLibrary}
variable {id : Identity Point} {seals : Sealing ι}
variable {bs : List β}

/-- The height and the hash of an index are those of the last of these blocks. -/
structure Marks (T : BlockTree β) (index : Index) (bs : List β) : Prop where
  linked : T.Linked bs
  length_le : bs.length ≤ 2 ^ 31
  height : index.lastScannedHeight + 1 = bs.length
  hash : bs ≠ [] → bs.getLast?.map T.getHash = some index.lastScannedHash

/-- The index is what one pass over these blocks gives. -/
structure Covers (crypto : Crypto) (lib : ScanLibrary) (id : Identity Point) (T : BlockTree β)
    (lookup : SubaddressLookup) (index : Index) (bs : List β) : Prop where
  marks : Marks T index bs
  entries : index.entries = scanEntries crypto lib id T lookup 0 bs ∅

/-- Two states of the subaddresses recognise the same of these blocks. -/
def SameRecoveries (lib : ScanLibrary) (id : Identity Point) (T : BlockTree β) (c c' : ℕ)
    (bs : List β) : Prop :=
  ∀ block ∈ bs, ∀ tx ∈ T.vtx block, ∀ i,
    tryRecoverCTOutput lib id (buildSubaddressLookup lib id c) tx i =
      tryRecoverCTOutput lib id (buildSubaddressLookup lib id c') tx i

theorem SameRecoveries.mono {cs : List β} (h : SameRecoveries lib id T c c' bs) (hsub : cs ⊆ bs) :
    SameRecoveries lib id T c c' cs :=
  fun block hblock => h block (hsub hblock)

theorem scanEntries_append (lookup : SubaddressLookup) (h : ℕ) (bs cs : List β)
    (entries : Entries) :
    scanEntries crypto lib id T lookup h (bs ++ cs) entries =
      scanEntries crypto lib id T lookup (h + bs.length) cs
        (scanEntries crypto lib id T lookup h bs entries) := by
  induction bs generalizing h entries with
  | nil => rfl
  | cons block bs ih =>
    rw [cons_append, scanEntries, scanEntries, ih, length_cons, Nat.add_right_comm,
      Nat.add_assoc]

theorem scanEntries_congr (h : SameRecoveries lib id T c c' bs) (height : ℕ) (entries : Entries) :
    scanEntries crypto lib id T (buildSubaddressLookup lib id c) height bs entries =
      scanEntries crypto lib id T (buildSubaddressLookup lib id c') height bs entries := by
  induction bs generalizing height entries with
  | nil => rfl
  | cons block bs ih =>
    have hblock : blockRecoveries (T := T) crypto lib id (buildSubaddressLookup lib id c) block =
        blockRecoveries (T := T) crypto lib id (buildSubaddressLookup lib id c') block := by
      unfold blockRecoveries
      refine flatMap_congr fun tx htx => ?_
      simp only [h block mem_cons_self tx htx]
    rw [scanEntries, scanEntries, hblock]
    exact ih (h.mono (subset_cons_self _ _)) _ _

theorem Covers.congr {index : Index}
    (h : Covers crypto lib id T (buildSubaddressLookup lib id c) index bs)
    (hsame : SameRecoveries lib id T c c' bs) :
    Covers crypto lib id T (buildSubaddressLookup lib id c') index bs :=
  ⟨h.marks, h.entries.trans (scanEntries_congr hsame 0 ∅)⟩

theorem covers_empty (lookup : SubaddressLookup) :
    Covers crypto lib id T lookup emptyIndex [] where
  marks := ⟨isChain_nil, by simp, rfl, fun h => absurd rfl h⟩
  entries := rfl

/-- An index that the chain has not left covers a part of the chain from its start. -/
theorem Marks.isPrefix {index : Index} {chain : ActiveChain T} (h : Marks T index bs)
    (hrescan : ¬ NeedsFullRescan chain index) : bs <+: chain.blocks := by
  have hheight := h.height
  have htip : index.lastScannedHeight ≤ chain.tipHeight :=
    Int.not_lt.mp fun hlt => hrescan (.inl hlt)
  have hlength : bs.length ≤ chain.blocks.length := by
    unfold ActiveChain.tipHeight at htip
    omega
  by_cases hnil : bs = []
  · rw [hnil]
    exact nil_prefix
  have hpos : 0 < bs.length := length_pos_of_ne_nil hnil
  have hlast : (chain.blocks[index.lastScannedHeight.toNat]?).map T.getHash =
      some index.lastScannedHash := by
    by_contra hne
    exact hrescan (.inr ⟨by omega, hne⟩)
  have hindex : index.lastScannedHeight.toNat = bs.length - 1 := by omega
  have htake : bs = chain.blocks.take bs.length := by
    have hlink : T.Linked (chain.blocks.take bs.length) := chain.linked.take _
    refine h.linked.eq_of_last hlink (by simp [hlength]) ?_
    rw [h.hash hnil, ← hlast, hindex, List.getLast?_take, if_neg (by omega)]
    have hsome : (chain.blocks[bs.length - 1]?).isSome := by
      rw [List.getElem?_eq_getElem (show bs.length - 1 < chain.blocks.length by omega)]
      rfl
    rw [or_of_isSome hsome]
  rw [htake]
  exact take_prefix _ _

theorem covers_scanBlock (env : Conditions ι) {scan : Scan} {block : β}
    (h : Covers crypto lib id T lookup scan.index bs) (hlinked : T.Linked (bs ++ [block]))
    (hlength : bs.length + 1 ≤ 2 ^ 31) :
    Covers crypto lib id T lookup
      (scanBlock crypto lib id T env lookup bs.length block scan).index (bs ++ [block]) where
  marks :=
    { linked := hlinked
      length_le := by simpa using hlength
      height := by simp [scanBlock]
      hash := fun _ => by simp [scanBlock] }
  entries := by
    rw [scanEntries_append, ← h.entries, Nat.zero_add]
    rfl

/-- A pass extends what the index covers by the blocks that it reads. -/
theorem covers_scanBlocks (env : Conditions ι) {scan : Scan} {blocks : List β}
    (h : Covers crypto lib id T lookup scan.index bs) (hlinked : T.Linked (bs ++ blocks))
    (hlength : (bs ++ blocks).length ≤ 2 ^ 31) :
    ∃ taken, bs ++ taken <+: bs ++ blocks ∧
      Covers crypto lib id T lookup
        (scanBlocks crypto lib id T env lookup bs.length blocks scan).index (bs ++ taken) := by
  induction blocks generalizing bs scan with
  | nil => exact ⟨[], prefix_rfl, by simpa [scanBlocks] using h⟩
  | cons block blocks ih =>
    have hsplit : bs ++ block :: blocks = bs ++ [block] ++ blocks := by simp
    rw [hsplit] at hlinked hlength ⊢
    by_cases hread : env.readable bs.length
    · have hblock := covers_scanBlock env h (isChain_append.mp hlinked).1
        (by simp only [length_append, length_singleton] at hlength; omega)
      obtain ⟨taken, hinit, htaken⟩ := ih hblock hlinked hlength
      refine ⟨block :: taken, ?_, ?_⟩
      · simpa using hinit
      · rw [scanBlocks, if_pos hread]
        simpa using htaken
    · refine ⟨[], ?_, ?_⟩
      · rw [append_nil, append_assoc]
        exact prefix_append _ _
      · rw [scanBlocks, if_neg hread, append_nil]
        exact h

theorem maxUsedIndex_note (env : Conditions ι) (s : Subaddresses) (discovered : ℕ) :
    (s.noteSubaddressDiscovered env discovered).maxUsedIndex = max s.maxUsedIndex discovered := by
  unfold Subaddresses.noteSubaddressDiscovered
  split
  case isTrue h => exact (Nat.max_eq_left h).symm
  case isFalse h => exact (Nat.max_eq_right (Nat.le_of_not_le h)).symm

/-- The last index in use rises to one that was found, if it rises. -/
theorem maxUsedIndex_notes (env : Conditions ι) (s : Subaddresses) (found : List ℕ) :
    (found.foldl (Subaddresses.noteSubaddressDiscovered env) s).maxUsedIndex = s.maxUsedIndex ∨
      ∃ d ∈ found, s.maxUsedIndex < d ∧
        (found.foldl (Subaddresses.noteSubaddressDiscovered env) s).maxUsedIndex = d := by
  induction found generalizing s with
  | nil => exact .inl rfl
  | cons d found ih =>
    have hnote := maxUsedIndex_note env s d
    rcases ih (s.noteSubaddressDiscovered env d) with heq | ⟨d', hmem, hlt, heq⟩
    · rw [foldl_cons, heq, hnote]
      rcases Nat.le_total d s.maxUsedIndex with hle | hle
      · exact .inl (Nat.max_eq_left hle)
      · rcases Nat.eq_or_lt_of_le hle with hsame | hlt
        · exact .inl (by omega)
        · exact .inr ⟨d, mem_cons_self, hlt, Nat.max_eq_right hle⟩
    · rw [hnote] at hlt
      exact .inr ⟨d', mem_cons_of_mem _ hmem, by omega, heq⟩

theorem maxUsedIndex_scanBlocks (crypto : Crypto) (env : Conditions ι) (lookup : SubaddressLookup)
    (h : ℕ) (blocks : List β) (scan : Scan) :
    (scanBlocks crypto lib id T env lookup h blocks scan).subaddresses.maxUsedIndex =
        scan.subaddresses.maxUsedIndex ∨
      ∃ block ∈ blocks, ∃ p ∈ blockRecoveries (T := T) crypto lib id lookup block,
        scan.subaddresses.maxUsedIndex < p.2.subaddressIndex ∧
        (scanBlocks crypto lib id T env lookup h blocks scan).subaddresses.maxUsedIndex =
          p.2.subaddressIndex := by
  induction blocks generalizing h scan with
  | nil => exact .inl rfl
  | cons block blocks ih =>
    unfold scanBlocks
    split
    case isFalse hread => exact .inl rfl
    case isTrue hread =>
      have hfirst := maxUsedIndex_notes env scan.subaddresses
        ((blockRecoveries (T := T) crypto lib id lookup block).map fun p => p.2.subaddressIndex)
      rcases ih (h + 1) (scanBlock crypto lib id T env lookup h block scan) with
        heq | ⟨b, hb, p, hp, hlt, heq⟩
      · rw [heq]
        rcases hfirst with hfirst | ⟨d, hd, hlt, hfirst⟩
        · exact .inl hfirst
        · obtain ⟨p, hp, rfl⟩ := mem_map.mp hd
          exact .inr ⟨block, mem_cons_self, p, hp, hlt, hfirst⟩
      · refine .inr ⟨b, mem_cons_of_mem _ hb, p, hp, lt_of_le_of_lt ?_ hlt, heq⟩
        rcases hfirst with hfirst | ⟨d, -, hrise, hfirst⟩
        · exact hfirst.ge
        · exact hrise.le.trans hfirst.ge

theorem tryRecover_of_mem_blockRecoveries {block : β} {p : Txid × RecoveredOutput}
    (h : p ∈ blockRecoveries (T := T) crypto lib id lookup block) :
    ∃ tx ∈ T.vtx block, ∃ i, tryRecoverCTOutput lib id lookup tx i = some p.2 := by
  obtain ⟨tx, htx, hp⟩ := mem_flatMap.mp h
  split_ifs at hp with hversion
  · cases hp
  · obtain ⟨i, -, hi⟩ := mem_filterMap.mp hp
    obtain ⟨rec, hrec, rfl⟩ := map_eq_some_iff.mp hi
    exact ⟨tx, htx, UInt32.ofNat i, hrec⟩

/-- A load leaves the index in memory. -/
theorem cached_loadStateCached {s s' : Subaddresses} {opens : Bool}
    (h : s.loadStateCached opens = some s') : s'.cached = some s.maxUsedIndex := by
  obtain ⟨cached, stored⟩ := s
  cases cached with
  | some n =>
    obtain rfl := some.inj h
    rfl
  | none =>
    cases stored with
    | none =>
      obtain rfl := some.inj h
      rfl
    | some n =>
      simp only [Subaddresses.loadStateCached] at h
      split_ifs at h
      obtain rfl := some.inj h
      rfl

theorem maxUsedIndex_of_cached {s : Subaddresses} {n : ℕ} (h : s.cached = some n) :
    s.maxUsedIndex = n := by
  rw [Subaddresses.maxUsedIndex, h, getD_some]

theorem maxUsedIndex_allocate (lib : ScanLibrary) (id : Identity Point) (env : Conditions ι)
    (hasLabel : Bool) (s : Subaddresses) :
    (allocateNextSubaddress lib id env hasLabel s).maxUsedIndex = s.maxUsedIndex ∨
      (allocateNextSubaddress lib id env hasLabel s).maxUsedIndex = s.maxUsedIndex + 1 := by
  unfold allocateNextSubaddress
  by_cases hid : env.identity = false
  · rw [if_pos hid]
    exact .inl rfl
  rw [if_neg hid]
  cases hload : s.loadStateCached env.opens with
  | none => exact .inl rfl
  | some s' =>
    have hcached := cached_loadStateCached hload
    have hsame := maxUsedIndex_of_cached hcached
    dsimp only
    by_cases hwrap : s'.maxUsedIndex + 1 = 2 ^ 32
    · rw [if_pos hwrap]
      exact .inl hsame
    rw [if_neg hwrap]
    cases lib.deriveSubaddress id.view id.spend (s'.maxUsedIndex + 1) with
    | none => exact .inl hsame
    | some sub =>
      dsimp only
      by_cases hwrite : (env.seed.isSome && env.stateWrites (s'.maxUsedIndex + 1)) = true
      · rw [if_pos hwrite]
        by_cases hlabel : (hasLabel && !env.labelWrites) = true
        · rw [if_pos hlabel]
          exact .inl (maxUsedIndex_of_cached hcached)
        · rw [if_neg hlabel]
          exact .inr (maxUsedIndex_of_cached (by rw [hsame]))
      · rw [if_neg hwrite]
        exact .inl hsame

end Coverage

section Histories

variable {β ι : Type} {T : BlockTree β} {crypto : Crypto} {lib : ScanLibrary}
variable {id : Identity Point} {seals : Sealing ι}
variable {w : Wallet T ι}

/-- Both states of the subaddresses recognise the same of the blocks behind an index. -/
def IndexKept (lib : ScanLibrary) (id : Identity Point) (T : BlockTree β) (c c' : ℕ)
    (index : Index) : Prop :=
  ∀ bs, Marks T index bs → SameRecoveries lib id T c c' bs

/-- Whenever the last subaddress in use changes, nothing in the blocks behind the index in memory
and the stored index is recognised differently, and a stored index that is to be loaded is not too
large. In a pass it changes to the subaddresses that the active chain pays to. -/
def Steady (lib : ScanLibrary) (id : Identity Point) (w : Wallet T ι) : Event T ι → Prop
  | .newChain _ => True
  | .sync _ =>
    ∀ block ∈ w.chain.blocks, ∀ tx ∈ T.vtx block, ∀ i rec,
      tryRecoverCTOutput lib id (buildSubaddressLookup lib id w.subaddresses.maxUsedIndex) tx i =
        some rec → w.subaddresses.maxUsedIndex < rec.subaddressIndex →
      SameRecoveries lib id T w.subaddresses.maxUsedIndex rec.subaddressIndex w.chain.blocks ∧
        ∀ index seed, w.cache = some (index, seed) →
          IndexKept lib id T w.subaddresses.maxUsedIndex rec.subaddressIndex index
  | .allocate _ _ =>
    (∀ index, w.index = some index →
      IndexKept lib id T w.subaddresses.maxUsedIndex (w.subaddresses.maxUsedIndex + 1) index) ∧
    ∀ index seed, w.cache = some (index, seed) →
      IndexKept lib id T w.subaddresses.maxUsedIndex (w.subaddresses.maxUsedIndex + 1) index
  | .restart =>
    ∀ index seed, w.cache = some (index, seed) → index.entries.size ≤ maxStoredEntries ∧
      IndexKept lib id T w.subaddresses.maxUsedIndex (w.subaddresses.stored.getD 0) index

/-- Both indices are passes over some blocks with the lookup of the moment, and a stored index
can be loaded when it is going to be. -/
structure Coherent (crypto : Crypto) (lib : ScanLibrary) (id : Identity Point)
    (w : Wallet T ι) : Prop where
  index : ∀ index, w.index = some index → ∃ bs, Covers crypto lib id T
    (buildSubaddressLookup lib id w.subaddresses.maxUsedIndex) index bs
  cache : ∀ index seed, w.cache = some (index, seed) → ∃ bs, Covers crypto lib id T
    (buildSubaddressLookup lib id w.subaddresses.maxUsedIndex) index bs
  loadable : w.index = none → ∀ index seed, w.cache = some (index, seed) →
    index.entries.size ≤ maxStoredEntries

theorem Coherent.covers_load (hw : Coherent crypto lib id w) (hindex : w.index = none)
    (env : Conditions ι) :
    ∃ bs, Covers crypto lib id T (buildSubaddressLookup lib id w.subaddresses.maxUsedIndex)
      (loadPersistedRecoveryIndex seals env w) bs := by
  unfold loadPersistedRecoveryIndex
  cases hcache : w.cache with
  | none => exact ⟨[], covers_empty _⟩
  | some stored =>
    obtain ⟨index, seed⟩ := stored
    dsimp only
    split
    case isTrue hshut => exact ⟨[], covers_empty _⟩
    case isFalse hopen =>
      obtain ⟨bs, hbs⟩ := hw.cache index seed hcache
      have hsize := hw.loadable hindex index seed hcache
      have hheight := hbs.marks.height
      have hlength := hbs.marks.length_le
      rw [seals.decrypt_encrypt]
      dsimp only
      rw [deserialize_serialize_eq (by omega) (by omega)
        (hsize.trans (by decide)), if_neg (by omega)]
      exact ⟨bs, hbs⟩

theorem Coherent.covers_getD (hw : Coherent crypto lib id w) (seals : Sealing ι)
    (env : Conditions ι) :
    ∃ bs, Covers crypto lib id T (buildSubaddressLookup lib id w.subaddresses.maxUsedIndex)
      (w.index.getD (loadPersistedRecoveryIndex seals env w)) bs := by
  cases hindex : w.index with
  | none => exact hw.covers_load hindex env
  | some index => exact hw.index index hindex

/-- What is left of an index after the test for a reorganisation covers a part of the active
chain from its start. -/
theorem Covers.covers_kept {lookup : SubaddressLookup} {index : Index} {bs : List β}
    (h : Covers crypto lib id T lookup index bs) (chain : ActiveChain T) :
    ∃ bs', bs' <+: chain.blocks ∧ Covers crypto lib id T lookup
      (if NeedsFullRescan chain index then emptyIndex else index) bs' := by
  split
  case isTrue hrescan => exact ⟨[], nil_prefix, covers_empty lookup⟩
  case isFalse hrescan => exact ⟨bs, h.marks.isPrefix hrescan, h⟩

/-- An index that has reached the tip is the pass over the whole chain. -/
theorem Covers.eq_fullScan {lookup : SubaddressLookup} {index : Index} {bs : List β}
    {chain : ActiveChain T} (h : Covers crypto lib id T lookup index bs)
    (hinit : bs <+: chain.blocks) (htip : index.lastScannedHeight = chain.tipHeight) :
    index.entries = fullScan crypto lib id chain lookup := by
  have hlength : bs.length = chain.blocks.length := by
    have hheight := h.marks.height
    rw [htip, ActiveChain.tipHeight] at hheight
    omega
  rw [h.entries, hinit.eq_of_length hlength]
  rfl

/-- A wallet with a new index in memory, under subaddresses that recognise the same. -/
theorem Coherent.withIndex {w : Wallet T ι} (hw : Coherent crypto lib id w) {index : Index}
    {bs : List β} {subaddresses : Subaddresses}
    (hindex : Covers crypto lib id T
      (buildSubaddressLookup lib id subaddresses.maxUsedIndex) index bs)
    (hcache : ∀ stored seed, w.cache = some (stored, seed) →
      IndexKept lib id T w.subaddresses.maxUsedIndex subaddresses.maxUsedIndex stored) :
    Coherent crypto lib id { w with index := some index, subaddresses } where
  index index' hindex' := by
    obtain rfl : index = index' := some.inj hindex'
    exact ⟨bs, hindex⟩
  cache stored seed hstored := by
    obtain ⟨cs, hcs⟩ := hw.cache stored seed hstored
    exact ⟨cs, hcs.congr (hcache stored seed hstored cs hcs.marks)⟩
  loadable hnone := nomatch hnone

theorem indexKept_refl (c : ℕ) (index : Index) : IndexKept lib id T c c index :=
  fun _ _ _ _ _ _ _ => rfl

theorem Coherent.persist (hw : Coherent crypto lib id w) {index : Index}
    (hindex : w.index = some index) (env : Conditions ι) :
    Coherent crypto lib id (persistRecoveryIndex env index w) := by
  unfold persistRecoveryIndex
  split
  · exact hw
  · split
    · exact
        { index := hw.index
          cache := by
            intro stored seed hstored
            obtain ⟨rfl, -⟩ := Prod.mk.inj (some.inj hstored)
            exact hw.index index hindex
          loadable := fun hnone => by
            have hnone' : w.index = none := hnone
            rw [hindex] at hnone'
            cases hnone' }
    · exact hw

theorem persist_eq (env : Conditions ι) (index : Index) (w : Wallet T ι) :
    (persistRecoveryIndex env index w).chain = w.chain ∧
      (persistRecoveryIndex env index w).subaddresses = w.subaddresses := by
  unfold persistRecoveryIndex
  split
  · exact ⟨rfl, rfl⟩
  · split <;> exact ⟨rfl, rfl⟩

/-- A pass that begins with an index for the first blocks of the chain ends with one for some
more of them, and what it finds does not change what is recognised. -/
theorem Coherent.scan {w : Wallet T ι} (hw : Coherent crypto lib id w) {env : Conditions ι}
    (hsteady : Steady lib id w (.sync env)) {index : Index} {bs : List β}
    (hinit : bs <+: w.chain.blocks)
    (hbs : Covers crypto lib id T
      (buildSubaddressLookup lib id w.subaddresses.maxUsedIndex) index bs)
    {subaddresses : Subaddresses}
    (hsame : subaddresses.maxUsedIndex = w.subaddresses.maxUsedIndex) {scan : Scan}
    (hscan : scan = scanBlocks crypto lib id T env
      (buildSubaddressLookup lib id w.subaddresses.maxUsedIndex)
      (index.lastScannedHeight + 1).toNat
      (w.chain.blocks.drop (index.lastScannedHeight + 1).toNat) ⟨index, subaddresses, 0⟩) :
    (∃ cs, cs <+: w.chain.blocks ∧ Covers crypto lib id T
      (buildSubaddressLookup lib id scan.subaddresses.maxUsedIndex) scan.index cs) ∧
    Coherent crypto lib id
      { w with index := some scan.index, subaddresses := scan.subaddresses } := by
  have hstart : (index.lastScannedHeight + 1).toNat = bs.length := by
    have hheight := hbs.marks.height
    omega
  obtain ⟨rest, hrest⟩ := hinit
  have hdrop : w.chain.blocks.drop bs.length = rest := by
    rw [← hrest, drop_left]
  rw [hstart, hdrop] at hscan
  have hlinked : T.Linked (bs ++ rest) := by
    rw [hrest]
    exact w.chain.linked
  have hlength : (bs ++ rest).length ≤ 2 ^ 31 := by
    rw [hrest]
    exact w.chain.length_le
  have hstarts : Covers crypto lib id T
      (buildSubaddressLookup lib id w.subaddresses.maxUsedIndex)
      (Scan.mk index subaddresses 0).index bs := hbs
  obtain ⟨taken, htaken, hcovers⟩ := covers_scanBlocks env hstarts hlinked hlength
  rw [hrest] at htaken
  rw [← hscan] at hcovers
  -- the last index in use is the old one, or one that the pass has found on the chain
  have hkept : SameRecoveries lib id T w.subaddresses.maxUsedIndex
        scan.subaddresses.maxUsedIndex w.chain.blocks ∧
      ∀ stored seed, w.cache = some (stored, seed) →
        IndexKept lib id T w.subaddresses.maxUsedIndex scan.subaddresses.maxUsedIndex stored := by
    rcases maxUsedIndex_scanBlocks crypto env
      (buildSubaddressLookup lib id w.subaddresses.maxUsedIndex) bs.length rest
      ⟨index, subaddresses, 0⟩ with heq | ⟨block, hblock, p, hp, hlt, heq⟩
    · rw [hscan, heq, hsame]
      exact ⟨fun _ _ _ _ _ => rfl, fun stored _ _ => indexKept_refl _ stored⟩
    · obtain ⟨tx, htx, i, hi⟩ := tryRecover_of_mem_blockRecoveries hp
      have hchain : block ∈ w.chain.blocks := by
        rw [← hrest]
        exact mem_append_right _ hblock
      rw [hscan, heq]
      exact hsteady block hchain tx htx i p.2 hi (hsame ▸ hlt)
  have hfinal := hcovers.congr (hkept.1.mono htaken.subset)
  exact ⟨⟨bs ++ taken, htaken, hfinal⟩, hw.withIndex hfinal hkept.2⟩

/-- What a pass over the active chain leaves. -/
structure Synced (crypto : Crypto) (lib : ScanLibrary) (id : Identity Point) (w : Wallet T ι)
    (result : Option Index × Wallet T ι) : Prop where
  coherent : Coherent crypto lib id result.2
  chain : result.2.chain = w.chain
  full : ∀ index, result.1 = some index → index.lastScannedHeight = w.chain.tipHeight →
    index.entries = fullScan crypto lib id w.chain
      (buildSubaddressLookup lib id result.2.subaddresses.maxUsedIndex)

theorem Coherent.sync (hw : Coherent crypto lib id w) {env : Conditions ι}
    (hsteady : Steady lib id w (.sync env)) :
    Synced crypto lib id w (syncRecoveryIndex crypto lib id seals env w) := by
  obtain ⟨bs₀, hbs₀⟩ := hw.covers_getD seals env
  unfold syncRecoveryIndex
  generalize w.index.getD (loadPersistedRecoveryIndex seals env w) = index₀ at hbs₀
  dsimp only
  have hkept : ∀ stored seed, w.cache = some (stored, seed) →
      IndexKept lib id T w.subaddresses.maxUsedIndex w.subaddresses.maxUsedIndex stored :=
    fun stored _ _ => indexKept_refl _ stored
  by_cases hempty : w.chain.tipHeight < 0
  · rw [if_pos hempty]
    refine ⟨hw.withIndex hbs₀ hkept, rfl, ?_⟩
    intro index hindex htip
    obtain rfl : index₀ = index := some.inj hindex
    have hnil : bs₀ = [] := by
      have hheight := hbs₀.marks.height
      exact eq_nil_of_length_eq_zero (by omega)
    exact hbs₀.eq_fullScan (by rw [hnil]; exact nil_prefix) htip
  rw [if_neg hempty]
  obtain ⟨bs, hinit, hbs⟩ := hbs₀.covers_kept w.chain
  generalize (if NeedsFullRescan w.chain index₀ then emptyIndex else index₀) = index₁ at hbs
  by_cases hdone : w.chain.tipHeight ≤ index₁.lastScannedHeight
  · rw [if_pos hdone]
    refine ⟨hw.withIndex hbs hkept, rfl, ?_⟩
    intro index hindex htip
    obtain rfl : index₁ = index := some.inj hindex
    exact hbs.eq_fullScan hinit htip
  rw [if_neg hdone]
  by_cases hid : env.identity = false
  · rw [if_pos hid]
    exact ⟨hw.withIndex hbs hkept, rfl, fun _ hnone => nomatch hnone⟩
  rw [if_neg hid]
  cases hload : w.subaddresses.loadStateCached env.opens with
  | none => exact ⟨hw.withIndex hbs hkept, rfl, fun _ hnone => nomatch hnone⟩
  | some subaddresses =>
    have hsame := maxUsedIndex_of_cached (cached_loadStateCached hload)
    dsimp only
    by_cases hlarge : 2 ^ 32 - 1 ≤ subaddresses.maxUsedIndex + kSubaddressGapLimit
    · rw [if_pos hlarge]
      refine ⟨hw.withIndex (by rwa [hsame]) ?_, rfl, fun _ hnone => nomatch hnone⟩
      rw [hsame]
      exact hkept
    rw [if_neg hlarge, hsame]
    generalize hscan : scanBlocks crypto lib id T env
      (buildSubaddressLookup lib id w.subaddresses.maxUsedIndex)
      (index₁.lastScannedHeight + 1).toNat
      (w.chain.blocks.drop (index₁.lastScannedHeight + 1).toNat)
      ⟨index₁, subaddresses, 0⟩ = scan
    obtain ⟨⟨cs, hcs, hcovers⟩, hcoherent⟩ := hw.scan hsteady hinit hbs hsame hscan.symm
    have hfull : ∀ index, some scan.index = some index →
        index.lastScannedHeight = w.chain.tipHeight →
        index.entries = fullScan crypto lib id w.chain
          (buildSubaddressLookup lib id scan.subaddresses.maxUsedIndex) := by
      intro index hindex htip
      obtain rfl := some.inj hindex
      exact hcovers.eq_fullScan hcs htip
    by_cases hnew : 0 < scan.newBlocks
    · rw [if_pos hnew]
      obtain ⟨hchain, hsubaddresses⟩ := persist_eq env scan.index
        { w with index := some scan.index, subaddresses := scan.subaddresses }
      refine ⟨hcoherent.persist rfl env, hchain, ?_⟩
      rw [hsubaddresses]
      exact hfull
    · rw [if_neg hnew]
      exact ⟨hcoherent, rfl, hfull⟩

theorem Coherent.step (seals : Sealing ι) (hw : Coherent crypto lib id w) {event : Event T ι}
    (hsteady : Steady lib id w event) :
    Coherent crypto lib id (step crypto lib id seals w event) := by
  cases event with
  | newChain chain => exact ⟨hw.index, hw.cache, hw.loadable⟩
  | sync env => exact (hw.sync hsteady).coherent
  | allocate env hasLabel =>
    have hstays : ∀ {index bs}, Covers crypto lib id T
        (buildSubaddressLookup lib id w.subaddresses.maxUsedIndex) index bs →
        IndexKept lib id T w.subaddresses.maxUsedIndex (w.subaddresses.maxUsedIndex + 1) index →
        Covers crypto lib id T (buildSubaddressLookup lib id
          (allocateNextSubaddress lib id env hasLabel w.subaddresses).maxUsedIndex) index bs := by
      intro index bs hbs hkept
      rcases maxUsedIndex_allocate lib id env hasLabel w.subaddresses with heq | heq
      · rwa [heq]
      · rw [heq]
        exact hbs.congr (hkept bs hbs.marks)
    exact
      { index := by
          intro index hindex
          obtain ⟨bs, hbs⟩ := hw.index index hindex
          exact ⟨bs, hstays hbs (hsteady.1 index hindex)⟩
        cache := by
          intro index seed hcache
          obtain ⟨bs, hbs⟩ := hw.cache index seed hcache
          exact ⟨bs, hstays hbs (hsteady.2 index seed hcache)⟩
        loadable := hw.loadable }
  | restart =>
    exact
      { index := fun _ hnone => nomatch hnone
        cache := by
          intro index seed hcache
          obtain ⟨bs, hbs⟩ := hw.cache index seed hcache
          exact ⟨bs, hbs.congr ((hsteady index seed hcache).2 bs hbs.marks)⟩
        loadable := fun _ index seed hcache => (hsteady index seed hcache).1 }

/-- After a steady history a pass finds what the indices go on from. -/
theorem synced_of_steady {w : Wallet T ι} (hindex : w.index = none) (hcache : w.cache = none)
    {events : List (Event T ι)} {env : Conditions ι}
    (hsteady : Always (step crypto lib id seals) (Steady lib id) w (events ++ [.sync env])) :
    Synced crypto lib id (events.foldl (step crypto lib id seals) w) (syncRecoveryIndex crypto lib
      id seals env (events.foldl (step crypto lib id seals) w)) := by
  have hstart : Coherent crypto lib id w :=
    { index := fun _ h => by simp [hindex] at h
      cache := fun _ _ h => by simp [hcache] at h
      loadable := fun _ _ _ h => by simp [hcache] at h }
  obtain ⟨hevents, hlast⟩ := Always.append.mp hsteady
  have hreached := hevents.invariant (fun _ _ h hw => Coherent.step seals hw h) hstart
  exact hreached.sync hlast.1

/-- In a history in which the subaddresses that come into reach are not paid to in blocks that
were passed, an index that has reached the tip is what a pass over the whole chain finds. -/
theorem entries_eq_fullScan (crypto : Crypto) (lib : ScanLibrary) (id : Identity Point)
    (seals : Sealing ι) (w : Wallet T ι) (hindex : w.index = none) (hcache : w.cache = none)
    (events : List (Event T ι)) (env : Conditions ι)
    (hsteady : Always (step crypto lib id seals) (Steady lib id) w (events ++ [.sync env]))
    {index : Index}
    (hreturn : (syncRecoveryIndex crypto lib id seals env
      (events.foldl (step crypto lib id seals) w)).1 = some index)
    (htip : index.lastScannedHeight =
      (events.foldl (step crypto lib id seals) w).chain.tipHeight) :
    index.entries = fullScan crypto lib id (events.foldl (step crypto lib id seals) w).chain
      (buildSubaddressLookup lib id (syncRecoveryIndex crypto lib id seals env
        (events.foldl (step crypto lib id seals) w)).2.subaddresses.maxUsedIndex) :=
  (synced_of_steady hindex hcache hsteady).full index hreturn htip

end Histories

section Samples

/-- The spend point of a subaddress in the samples. -/
def samplePoint (i : ℕ) : Point := ⟨2 :: UInt8.ofNat (i / 256) :: UInt8.ofNat i ::
  List.replicate 30 0, by simp⟩

def zeroKey : Uint256 := .replicate 32 0

def sampleLibrary : ScanLibrary where
  hash160 _ := .replicate 20 0
  ecdhPoint _ R := some R
  deriveSharedSecret _ _ := zeroKey
  recoverSpendPointFromOneTime P _ := some P
  deriveRangeProofNonce _ _ := zeroKey
  rewindRangeProof _ _ _ _ := some (1, zeroKey)
  deriveOneTimePriv _ spend := some spend
  computeKeyImage P _ := some P
  deriveSubaddress _ _ i := some ⟨samplePoint i, zeroKey⟩

def sampleIdentity : Identity Point where
  view := zeroKey
  spend := zeroKey
  publicAddress := ⟨samplePoint 0, samplePoint 0⟩

def sampleCrypto : Crypto where
  sha256 content := ⟨(content ++ List.replicate 32 0).take 32, by simp⟩
  verifyMultiLayer _ _ _ := true
  subtractCommitments _ _ := none
  commitTo _ := none
  verifyRangeProof _ _ _ := true
  verifySumZero _ _ _ := true

def sampleSealing : Sealing Unit := plainSealing

/-- A transaction with one output, to a subaddress. -/
def payment (i : ℕ) : Transaction where
  version := pricoinCTVersion
  vin := [⟨⟨.replicate 32 (UInt8.ofNat i), 0⟩, [], 0, []⟩]
  vout := [⟨0, keyHashScript sampleLibrary (samplePoint i)⟩]
  nLockTime := 0
  ctBundle :=
    { inputCommitments := []
      ringInputs := []
      outputs := [⟨samplePoint 0, [], [], samplePoint 0, samplePoint i⟩]
      transparentFee := 0 }

/-- One block with payments to these subaddresses. -/
def sampleTree (paid : List ℕ) : BlockTree Unit where
  vtx _ := paid.map payment
  getHash _ := nullHash
  prevHash _ := nullHash
  getHash_injective _ _ _ := rfl

theorem length_genesis_le : [()].length ≤ 2 ^ 31 := by decide

def sampleWallet (paid : List ℕ) : Wallet (sampleTree paid) Unit where
  chain := ⟨[()], isChain_singleton _, length_genesis_le⟩
  index := none
  cache := none
  subaddresses := ⟨none, none⟩

def calm : Conditions Unit where
  opens := true
  seed := some ()
  identity := true
  readable _ := true
  stateWrites _ := true
  labelWrites := true
  cacheWrites := true

/-- A payment to the subaddress 100 brings the subaddress 150 into reach. The payment to it that
follows in the same block is not in the index, though the index has reached the tip. -/
theorem later_payment_missed :
    ∃ index, (syncRecoveryIndex sampleCrypto sampleLibrary sampleIdentity sampleSealing calm
        (sampleWallet [100, 150])).1 = some index ∧
      index.lastScannedHeight = (sampleWallet [100, 150]).chain.tipHeight ∧
      index.entries ≠ fullScan sampleCrypto sampleLibrary sampleIdentity
        (sampleWallet [100, 150]).chain (buildSubaddressLookup sampleLibrary sampleIdentity
          (syncRecoveryIndex sampleCrypto sampleLibrary sampleIdentity sampleSealing calm
            (sampleWallet [100, 150])).2.subaddresses.maxUsedIndex) := by
  refine ⟨_, rfl, rfl, fun h => ?_⟩
  have hsize := congrArg ExtTreeMap.size h
  revert hsize
  decide +kernel

/-- The output to the subaddress 5, as the wallet finds it. -/
def recovered : Option RecoveredOutput :=
  tryRecoverCTOutput sampleLibrary sampleIdentity (buildSubaddressLookup sampleLibrary
    sampleIdentity 5) (payment 5) 0

theorem tryRecover_payment {c : ℕ} (hc : c = 0 ∨ c = 5) (i : UInt32) :
    tryRecoverCTOutput sampleLibrary sampleIdentity (buildSubaddressLookup sampleLibrary
      sampleIdentity c) (payment 5) i = if i = 0 then recovered else none := by
  split
  · rename_i hi
    subst hi
    rcases hc with rfl | rfl
    · decide +kernel
    · rfl
  · rename_i hi
    obtain ⟨n, hn⟩ := Nat.exists_eq_succ_of_ne_zero fun h => hi (UInt32.toNat_inj.mp h)
    simp [tryRecoverCTOutput, payment, hn]

theorem steady_sampleWallet {w : Wallet (sampleTree [5]) Unit}
    (hc : w.subaddresses.maxUsedIndex = 0 ∨ w.subaddresses.maxUsedIndex = 5)
    (hcache : w.subaddresses.maxUsedIndex = 0 → w.cache = none) :
    Steady sampleLibrary sampleIdentity w (.sync calm) := by
  have hindex : recovered.map RecoveredOutput.subaddressIndex = some 5 := by decide +kernel
  have htx (tx : Transaction) (h : tx ∈ (sampleTree [5]).vtx ()) : tx = payment 5 := by
    simpa [sampleTree] using h
  intro block _ tx hmem i rec hrec hlt
  rw [htx tx hmem, tryRecover_payment hc] at hrec
  split at hrec
  · rw [hrec, map_some, some.injEq] at hindex
    have hzero : w.subaddresses.maxUsedIndex = 0 := by omega
    refine ⟨fun block _ tx hmem i => ?_, fun _ _ h => by simp [hcache hzero] at h⟩
    rw [htx tx hmem, tryRecover_payment hc, hindex, tryRecover_payment (.inr rfl)]
  · cases hrec

/-- The wallet that has found the payment. -/
def scannedWallet : Wallet (sampleTree [5]) Unit :=
  step sampleCrypto sampleLibrary sampleIdentity sampleSealing (sampleWallet [5]) (.sync calm)

theorem scannedWallet_eq : scannedWallet.subaddresses.maxUsedIndex = 5 ∧
    scannedWallet.subaddresses.stored = some 5 ∧
    scannedWallet.cache.all (fun p => p.1.entries.size ≤ maxStoredEntries) = true := by
  decide +kernel

/-- The wallet is closed and opened again, and reads the index back. -/
theorem entries_eq_fullScan_payment :
    ∃ w index, w = [.sync calm, .restart].foldl (step sampleCrypto sampleLibrary sampleIdentity
        sampleSealing) (sampleWallet [5]) ∧
      (syncRecoveryIndex sampleCrypto sampleLibrary sampleIdentity sampleSealing calm w).1 =
        some index ∧
      index.lastScannedHeight = w.chain.tipHeight ∧ index.entries.size = 1 ∧
      index.entries = fullScan sampleCrypto sampleLibrary sampleIdentity
        w.chain (buildSubaddressLookup sampleLibrary sampleIdentity
          (syncRecoveryIndex sampleCrypto sampleLibrary sampleIdentity sampleSealing calm
            w).2.subaddresses.maxUsedIndex) := by
  obtain ⟨hused, hstored, hsmall⟩ := scannedWallet_eq
  have hrestarted : (step sampleCrypto sampleLibrary sampleIdentity sampleSealing scannedWallet
      .restart).subaddresses.maxUsedIndex = 5 := by
    change scannedWallet.subaddresses.stored.getD 0 = 5
    rw [hstored]
    rfl
  have hsteady : Always (step sampleCrypto sampleLibrary sampleIdentity sampleSealing)
      (Steady sampleLibrary sampleIdentity) (sampleWallet [5])
      ([.sync calm, .restart] ++ [.sync calm]) := by
    refine ⟨steady_sampleWallet (.inl rfl) fun _ => rfl, fun index seed hcache => ?_,
      steady_sampleWallet (.inr hrestarted) fun h => ?_, trivial⟩
    · change scannedWallet.cache = _ at hcache
      rw [hcache] at hsmall
      refine ⟨by simpa using hsmall, ?_⟩
      change IndexKept _ _ _ scannedWallet.subaddresses.maxUsedIndex
        (scannedWallet.subaddresses.stored.getD 0) index
      rw [hused, hstored]
      exact indexKept_refl 5 index
    · cases hrestarted.symm.trans h
  have hloaded : (syncRecoveryIndex sampleCrypto sampleLibrary sampleIdentity sampleSealing calm
      (step sampleCrypto sampleLibrary sampleIdentity sampleSealing scannedWallet .restart)).1.any
      (fun index => index.lastScannedHeight = 0 && index.entries.size = 1) = true := by
    decide +kernel
  obtain ⟨index, hindex, hchecks⟩ := (any_eq_true _ _).mp hloaded
  simp only [Bool.and_eq_true, decide_eq_true_eq] at hchecks
  have htip : index.lastScannedHeight = (sampleWallet [5]).chain.tipHeight := hchecks.1
  refine ⟨_, index, rfl, hindex, htip, hchecks.2, ?_⟩
  exact entries_eq_fullScan sampleCrypto sampleLibrary sampleIdentity sampleSealing
    (sampleWallet [5]) rfl rfl [.sync calm, .restart] calm hsteady hindex htip

end Samples

end Pricoin.RecoveryIndex
