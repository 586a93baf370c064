import Pricoin.ActiveChain
import Pricoin.BlockAcceptance

/-!
How often an output is spent in the active chain. A direct input erases the coin it
spends, and a transaction identifier never comes back, so no outpoint is spent
directly twice. A ring input commits a key image, and no key image is committed
twice. Nothing relates the two: a ring input leaves the coin where it is and a
direct input commits no key image. The outputs are spent once exactly as long as
the blocks avoid spending one of them both ways.
-/
namespace Pricoin.SpendExclusivity

open ByteStreams Checks Runs TaggedSets KeyImageFile KeyImageStore Transactions Coins TxChecks List
open BlockConnection BlockAcceptance UndoCodec ConnectDisconnect ActiveChain

variable {tx : Transaction} {nHeight height : ℕ} {view view' : CoinsView} {undo : List Coin}
  {done txs txs' : List Transaction} {crypto : Crypto} {chain : List ActiveBlock}

/-- The script of the first input, where a coinbase has its height. -/
def firstScript (tx : Transaction) : Script :=
  ((tx.vin.map (fun txin => txin.scriptSig)).head?).getD []

/-- Different transactions of the list have different identifiers. -/
def TxidsApart (crypto : Crypto) (txs : List Transaction) : Prop :=
  ∀ tx ∈ txs, ∀ tx' ∈ txs, crypto.txid tx = crypto.txid tx' →
    serializeNoWitness tx = serializeNoWitness tx'

section Ledger

variable {crypto : Crypto}

/-- The transactions applied to a view, in order, below a height. -/
structure Ledger (crypto : Crypto) (height : ℕ) (done : List Transaction) (view : CoinsView) :
    Prop where
  sound : ∀ tx ∈ done, TxSound tx
  ids : (done.map crypto.txid).Nodup
  origin : ∀ o, view o ≠ none → o.hash ∈ done.map crypto.txid
  spent : ∀ o ∈ done.flatMap directPrevouts, view o = none ∧ o.hash ∈ done.map crypto.txid
  once : (done.flatMap directPrevouts).Nodup
  images : (done.flatMap Transaction.keyImages).Nodup
  coinbases : ∀ tx ∈ done, tx.isCoinBase = true → ∃ h < height, pushInt h <+: firstScript tx

theorem Ledger.empty (height : ℕ) : Ledger crypto height [] (fun _ => none) where
  sound := by simp
  ids := nodup_nil
  origin := by simp
  spent := by simp
  once := nodup_nil
  images := nodup_nil
  coinbases := by simp

/-- The coins that a direct transaction spends were there. -/
theorem present_of_updateCoins (h : updateCoins crypto tx nHeight view = some (view', undo)) :
    ∀ o ∈ directPrevouts tx, view o ≠ none := by
  intro o ho
  obtain ⟨-, -, -, hundo⟩ := updateCoins_some h
  unfold directPrevouts at ho
  by_cases hcb : tx.isCoinBase = true
  · simp [hcb] at ho
  · by_cases hring : tx.isV4Ring = true
    · simp [hring] at ho
    · simp only [hcb, hring, Bool.or_self, Bool.false_eq_true, if_false] at ho hundo
      have hmem : view o ∈ undo.map some := by
        rw [← hundo]
        exact mem_map_of_mem ho
      obtain ⟨c, -, hc⟩ := mem_map.mp hmem
      simp [← hc]

/-- A transaction with ring inputs erases nothing. -/
theorem directPrevouts_of_keyImages (h : tx.keyImages ≠ []) : directPrevouts tx = [] := by
  have hring : tx.isV4Ring = true := by
    unfold Transaction.isV4Ring
    unfold Transaction.keyImages Transaction.ringInputs at h
    by_cases hv : tx.version = pricoinCTVersion
    · simp only [hv, if_true, ne_eq, map_eq_nil_iff] at h
      simp [hv, h]
    · simp [hv] at h
  simp [directPrevouts, hring]

/-- A transaction that is neither a coinbase nor a ring transaction spends something. -/
theorem directPrevouts_ne_nil (hsound : TxSound tx) (hcb : tx.isCoinBase = false)
    (hki : tx.keyImages = []) : directPrevouts tx ≠ [] := by
  have hv := hsound.version hcb
  have hring : tx.isV4Ring = false := by
    simp only [Transaction.keyImages, Transaction.ringInputs, hv, if_true,
      map_eq_nil_iff] at hki
    simp [Transaction.isV4Ring, hki]
  simp [directPrevouts, hcb, hring, Transaction.prevouts, hsound.nonempty]

theorem directPrevouts_eq_of_sameBody {tx' : Transaction} (h : SameBody tx tx') :
    directPrevouts tx = directPrevouts tx' := by
  rw [directPrevouts, directPrevouts, h.isCoinBase_eq, h.isV4Ring_eq, h.prevouts_eq]

variable (h : Ledger crypto height done view) (hsound : TxSound tx)
  (hapart : TxidsApart crypto (done ++ [tx]))
  (hupdate : updateCoins crypto tx nHeight view = some (view', undo))
  (himages : (done.flatMap Transaction.keyImages ++ tx.keyImages).Nodup)
  (hcb : tx.isCoinBase = true → height < 2 ^ 64 ∧ pushInt height <+: firstScript tx)
include h hsound hapart hupdate himages hcb

/-- A transaction that can still be applied has not been applied before. -/
theorem Ledger.txid_notMem : crypto.txid tx ∉ done.map crypto.txid := by
  intro hmem
  obtain ⟨tx', htx', heq⟩ := mem_map.mp hmem
  have hbody : SameBody tx' tx := sameBody_of_serializeNoWitness (h.sound tx' htx').fits hsound.fits
    (hapart tx' (mem_append_left _ htx') tx (by simp) heq)
  cases hcoinbase : tx.isCoinBase with
  | true =>
    -- both scripts would start with the height of their block
    obtain ⟨hlt, hpush⟩ := hcb hcoinbase
    obtain ⟨h', hh', hpush'⟩ := h.coinbases tx' htx' (by rw [hbody.isCoinBase_eq, hcoinbase])
    have hscript : firstScript tx' = firstScript tx := by
      rw [firstScript, hbody.scripts_eq, firstScript]
    rw [hscript] at hpush'
    have := pushInt_inj_of_prefix (by omega) hlt hpush' hpush
    omega
  | false =>
    by_cases hki : tx.keyImages = []
    · obtain ⟨o, ho⟩ := exists_mem_of_ne_nil _ (directPrevouts_ne_nil hsound hcoinbase hki)
      refine present_of_updateCoins hupdate o ho (h.spent o ?_).1
      exact mem_flatMap.mpr ⟨tx', htx', directPrevouts_eq_of_sameBody hbody ▸ ho⟩
    · obtain ⟨ki, hki⟩ := exists_mem_of_ne_nil _ hki
      exact (nodup_append'.mp himages).2.2
        (mem_flatMap.mpr ⟨tx', htx', hbody.keyImages_eq ▸ hki⟩) hki

theorem Ledger.append {height' : ℕ} (hle : height ≤ height')
    (hlt : tx.isCoinBase = true → height < height') :
    Ledger crypto height' (done ++ [tx]) view' := by
  have hnew := h.txid_notMem hsound hapart hupdate himages hcb
  have hpresent := present_of_updateCoins hupdate
  obtain ⟨rfl, -, hnd, -⟩ := updateCoins_some hupdate
  -- an outpoint of an earlier transaction is not one that this transaction creates
  have hkeep : ∀ o : OutPoint, o.hash ∈ done.map crypto.txid →
      erase (directPrevouts tx) view o = none →
      overlay (createdCoins crypto tx nHeight) (erase (directPrevouts tx) view) o = none := by
    intro o ho herased
    have hcreated : createdCoins crypto tx nHeight o = none := by
      by_contra hne
      obtain ⟨c, hc⟩ := Option.ne_none_iff_exists'.mp hne
      exact hnew ((createdFrom_some hc).1 ▸ ho)
    rw [overlay, hcreated, herased]
    rfl
  have hmono : ∀ hash, hash ∈ done.map crypto.txid → hash ∈ (done ++ [tx]).map crypto.txid := by
    intro hash hmem
    rw [map_append]
    exact mem_append_left _ hmem
  constructor
  case sound =>
    intro t ht
    rcases mem_append.mp ht with ht | ht
    · exact h.sound t ht
    · exact mem_singleton.mp ht ▸ hsound
  case ids =>
    rw [map_append]
    refine nodup_append'.mpr ⟨h.ids, nodup_singleton _, fun hash hmem hmem' => ?_⟩
    exact hnew (mem_singleton.mp hmem' ▸ hmem)
  case origin =>
    intro o ho
    cases hc : createdCoins crypto tx nHeight o with
    | some c =>
      rw [(createdFrom_some hc).1]
      exact mem_map_of_mem (by simp)
    | none =>
      refine hmono o.hash (h.origin o fun hnone => ho ?_)
      simp [overlay, hc, erase, hnone]
  case spent =>
    intro o ho
    rw [flatMap_append, mem_append] at ho
    have hold : o.hash ∈ done.map crypto.txid ∧ erase (directPrevouts tx) view o = none := by
      rcases ho with ho | ho
      · obtain ⟨hnone, hmem⟩ := h.spent o ho
        exact ⟨hmem, by simp [erase, hnone]⟩
      · have hdirect : o ∈ directPrevouts tx := by simpa using ho
        exact ⟨h.origin o (hpresent o hdirect), by simp [erase, hdirect]⟩
    exact ⟨hkeep o hold.1 hold.2, hmono o.hash hold.1⟩
  case once =>
    rw [flatMap_append]
    refine nodup_append'.mpr ⟨h.once, by simpa using hnd, fun o ho ho' => ?_⟩
    exact hpresent o (by simpa using ho') (h.spent o ho).1
  case images => simpa using himages
  case coinbases =>
    intro t ht htcb
    rcases mem_append.mp ht with ht | ht
    · obtain ⟨h', hlt', hpush⟩ := h.coinbases t ht htcb
      exact ⟨h', by omega, hpush⟩
    · obtain rfl := mem_singleton.mp ht
      exact ⟨height, hlt htcb, (hcb htcb).2⟩

end Ledger

section Exclusive

variable (crypto : Crypto) (keyImage : Point → Point)

/-- The outpoint is that of a confidential output with this one-time key. -/
def OutputKey (txs : List Transaction) (o : OutPoint) (key : Point) : Prop :=
  ∃ tx ∈ txs, tx.version = pricoinCTVersion ∧ o.hash = crypto.txid tx ∧
    ∃ ct, tx.ctBundle.outputs[o.n]? = some ct ∧ ct.oneTimePubkey = key

/-- How many inputs spend an output: ring inputs by its key image, and direct inputs by its
outpoint. -/
def spends (txs : List Transaction) (o : OutPoint) (key : Point) : ℕ :=
  (txs.flatMap Transaction.keyImages).count (keyImage key) + (txs.flatMap directPrevouts).count o

def SpentOnce (txs : List Transaction) : Prop :=
  ∀ o key, OutputKey crypto txs o key → spends keyImage txs o key ≤ 1

/-- A transaction that spends no output in one way that was spent in the other way before. -/
structure OneWay (done : List Transaction) (tx : Transaction) : Prop where
  direct : ∀ o ∈ directPrevouts tx, ∀ key, OutputKey crypto done o key →
    keyImage key ∉ done.flatMap Transaction.keyImages
  ring : ∀ ki ∈ tx.keyImages, ∀ o ∈ done.flatMap directPrevouts, ∀ key,
    OutputKey crypto done o key → ki ≠ keyImage key

/-- No output was spent in both ways. -/
def Exclusive (done : List Transaction) : Prop :=
  ∀ o key, OutputKey crypto done o key → o ∈ done.flatMap directPrevouts →
    keyImage key ∉ done.flatMap Transaction.keyImages

variable {crypto keyImage}

theorem Exclusive.append (h : Exclusive crypto keyImage done)
    (hway : OneWay crypto keyImage done tx) (hnew : crypto.txid tx ∉ done.map crypto.txid)
    (hold : ∀ o ∈ (done ++ [tx]).flatMap directPrevouts, o.hash ∈ done.map crypto.txid) :
    Exclusive crypto keyImage (done ++ [tx]) := by
  intro o key hkey ho himage
  -- a transaction cannot spend its own outputs
  have hkey' : OutputKey crypto done o key := by
    obtain ⟨t, ht, hv, hhash, hct⟩ := hkey
    rcases mem_append.mp ht with ht | ht
    · exact ⟨t, ht, hv, hhash, hct⟩
    · exact absurd (mem_singleton.mp ht ▸ hhash ▸ hold o ho) hnew
  rw [flatMap_append, mem_append, flatMap_singleton] at ho himage
  rcases ho with ho | ho <;> rcases himage with himage | himage
  · exact h o key hkey' ho himage
  · exact hway.ring _ himage o ho key hkey' rfl
  · exact hway.direct o ho key hkey' himage
  · rw [directPrevouts_of_keyImages (ne_nil_of_mem himage)] at ho
    simp at ho

theorem spentOnce_of_exclusive (himages : (txs.flatMap Transaction.keyImages).Nodup)
    (hdirect : (txs.flatMap directPrevouts).Nodup) (h : Exclusive crypto keyImage txs) :
    SpentOnce crypto keyImage txs := by
  intro o key hkey
  have hring := nodup_iff_count_le_one.mp himages (keyImage key)
  have hone := nodup_iff_count_le_one.mp hdirect o
  unfold spends
  by_cases ho : o ∈ txs.flatMap directPrevouts
  · rw [count_eq_zero.mpr (h o key hkey ho)]
    omega
  · rw [count_eq_zero.mpr ho]
    omega

end Exclusive

section Blocks

variable {rules : Rules} {keyImage : Point → Point} {committed : Finset Point}
  {pindex : BlockIndex}

/-- What has been applied so far, with the key images committed or collected for it. -/
structure Applied (rules : Rules) (keyImage : Point → Point) (committed : Finset Point)
    (height : ℕ) (done : List Transaction) (p : Progress) : Prop where
  ledger : Ledger rules.crypto height done p.view
  exclusive : Exclusive rules.crypto keyImage done
  images : ∀ ki ∈ done.flatMap Transaction.keyImages, ki ∈ committed ∨ ki ∈ p.kis

theorem Applied.connectTx (height' : ℕ) {first : Bool} {p p' : Progress}
    (h : Applied rules keyImage committed height done p) (hsound : TxSound tx)
    (hapart : TxidsApart rules.crypto (done ++ [tx])) (hway : OneWay rules.crypto keyImage done tx)
    (hcb : tx.isCoinBase = true → height < 2 ^ 64 ∧ pushInt height <+: firstScript tx)
    (hle : height ≤ height') (hlt : tx.isCoinBase = true → height < height')
    (hconn : TxConnected rules committed pindex first tx p p') :
    Applied rules keyImage committed height' (done ++ [tx]) p' := by
  obtain ⟨undo, hupdate, -⟩ := hconn.update
  have hnodup := hconn.nodup
  rw [hconn.kis] at hnodup
  obtain ⟨-, hown, hdisjoint⟩ := nodup_append'.mp hnodup
  have himages : (done.flatMap Transaction.keyImages ++ tx.keyImages).Nodup := by
    refine nodup_append'.mpr ⟨h.ledger.images, hown, fun ki hki hki' => ?_⟩
    rcases h.images ki hki with hin | hin
    · exact hconn.fresh hsound ki hki' hin
    · exact hdisjoint hin hki'
  have hledger := h.ledger.append hsound hapart hupdate himages hcb hle hlt
  have hnew := h.ledger.txid_notMem hsound hapart hupdate himages hcb
  refine ⟨hledger, h.exclusive.append hway hnew fun o ho => ?_, fun ki hki => ?_⟩
  · rw [flatMap_append, flatMap_singleton, mem_append] at ho
    rcases ho with ho | ho
    · exact (h.ledger.spent o ho).2
    · exact h.ledger.origin o (present_of_updateCoins hupdate o ho)
  · rw [flatMap_append, flatMap_singleton, mem_append] at hki
    rw [hconn.kis, mem_append]
    rcases hki with hki | hki
    · exact (h.images ki hki).imp id .inl
    · exact .inr (.inr hki)

theorem TxidsApart.mono (h : TxidsApart crypto txs') (hsub : txs ⊆ txs') : TxidsApart crypto txs :=
  fun tx htx tx' htx' => h tx (hsub htx) tx' (hsub htx')

/-- Every transaction of a list is one-way behind those before it. -/
def OneWayAll (crypto : Crypto) (keyImage : Point → Point) :
    List Transaction → List Transaction → Prop
  | _, [] => True
  | done, tx :: txs => OneWay crypto keyImage done tx ∧
    OneWayAll crypto keyImage (done ++ [tx]) txs

theorem Applied.connectTxs {first : Bool} {p p' : Progress}
    (h : Applied rules keyImage committed height done p)
    (htxs : ∀ tx ∈ txs, TxSound tx ∧ tx.isCoinBase = false)
    (hapart : TxidsApart rules.crypto (done ++ txs))
    (hways : OneWayAll rules.crypto keyImage done txs)
    (hconn : connectTxs rules committed pindex first txs p = .ok p') :
    Applied rules keyImage committed height (done ++ txs) p' := by
  induction txs generalizing first done p with
  | nil =>
    simp only [BlockConnection.connectTxs, Except.ok.injEq] at hconn
    rw [append_nil, ← hconn]
    exact h
  | cons tx txs ih =>
    simp only [BlockConnection.connectTxs, bind_ok] at hconn
    obtain ⟨q, hq, hrest⟩ := hconn
    obtain ⟨hsound, hcb⟩ := htxs tx mem_cons_self
    have hassoc : done ++ [tx] ++ txs = done ++ tx :: txs := by simp
    have hstep := h.connectTx height hsound (hapart.mono (by simp)) hways.1
      (by simp [hcb]) (Nat.le_refl _) (by simp [hcb]) (connectTx_ok hq)
    have hend := ih hstep (fun t ht => htxs t (mem_cons_of_mem _ ht)) (by rwa [hassoc])
      hways.2 hrest
    rwa [hassoc] at hend

end Blocks

section Chains

variable (rules : Rules) (keys : PubKeys) (keyImage : Point → Point)

/-- The transactions of a chain, oldest first. -/
def chainTxs (chain : List ActiveBlock) : List Transaction :=
  chain.reverse.flatMap (fun e => e.2.vtx)

/-- Those that were applied: the genesis block never is. -/
def appliedTxs (chain : List ActiveBlock) : List Transaction :=
  chain.reverse.flatMap (fun e => if e.1.hash = rules.hashGenesisBlock then [] else e.2.vtx)

/-- The block spends no output in one way that was spent in the other way before. -/
def OneWayBlock (s : Chainstate) (b : ActiveBlock) : Prop :=
  OneWayAll rules.crypto keyImage (chainTxs s.chain) b.2.vtx

variable {rules keys keyImage}

theorem chainTxs_cons (pindex : BlockIndex) (block : Block) (rest : List ActiveBlock) :
    chainTxs ((pindex, block) :: rest) = chainTxs rest ++ block.vtx := by
  simp [chainTxs]

theorem appliedTxs_cons (pindex : BlockIndex) (block : Block) (rest : List ActiveBlock) :
    appliedTxs rules ((pindex, block) :: rest) = appliedTxs rules rest ++
      if pindex.hash = rules.hashGenesisBlock then [] else block.vtx := by
  simp [appliedTxs]

theorem appliedTxs_subset (chain : List ActiveBlock) : appliedTxs rules chain ⊆ chainTxs chain := by
  induction chain with
  | nil => exact List.Subset.refl _
  | cons e rest ih =>
    obtain ⟨pindex, block⟩ := e
    rw [appliedTxs_cons, chainTxs_cons]
    refine append_subset.mpr ⟨List.Subset.trans ih (subset_append_left _ _), ?_⟩
    split
    · exact nil_subset _
    · exact subset_append_right _ _

theorem OutputKey.mono {o : OutPoint} {key : Point} (h : OutputKey crypto txs o key)
    (hsub : txs ⊆ txs') : OutputKey crypto txs' o key := by
  obtain ⟨tx, htx, hrest⟩ := h
  exact ⟨tx, hsub htx, hrest⟩

theorem flatMap_subset {α : Type} {f : Transaction → List α} (hsub : txs ⊆ txs') :
    txs.flatMap f ⊆ txs'.flatMap f := by
  intro a ha
  obtain ⟨tx, htx, ha⟩ := mem_flatMap.mp ha
  exact mem_flatMap.mpr ⟨tx, hsub htx, ha⟩

theorem OneWayAll.mono {done' : List Transaction} (h : OneWayAll crypto keyImage done' txs)
    (hsub : done ⊆ done') : OneWayAll crypto keyImage done txs := by
  induction txs generalizing done done' with
  | nil => trivial
  | cons tx txs ih =>
    obtain ⟨⟨hdirect, hring⟩, hrest⟩ := h
    refine ⟨⟨fun o ho key hkey himage => ?_, fun ki hki o ho key hkey => ?_⟩, ih hrest ?_⟩
    · exact hdirect o ho key (hkey.mono hsub) (flatMap_subset hsub himage)
    · exact hring ki hki o (flatMap_subset hsub ho) key (hkey.mono hsub)
    · exact append_subset.mpr ⟨List.Subset.trans hsub (subset_append_left _ _),
        subset_append_right _ _⟩

/-- A block with the genesis hash is a coinbase only. -/
def GenesisBlocks (rules : Rules) (chain : List ActiveBlock) : Prop :=
  ∀ e ∈ chain, e.1.hash = rules.hashGenesisBlock →
    ∃ cb, e.2.vtx = [cb] ∧ cb.isCoinBase = true ∧ TxSound cb

theorem flatMap_chainTxs {α : Type} {f : Transaction → List α}
    (hf : ∀ cb, cb.isCoinBase = true → TxSound cb → f cb = []) (h : GenesisBlocks rules chain) :
    (chainTxs chain).flatMap f = (appliedTxs rules chain).flatMap f := by
  induction chain with
  | nil => rfl
  | cons e rest ih =>
    obtain ⟨pindex, block⟩ := e
    rw [chainTxs_cons, appliedTxs_cons, flatMap_append, flatMap_append,
      ih fun e he => h e (mem_cons_of_mem _ he)]
    split
    · rename_i hgenesis
      obtain ⟨cb, hvtx, hcb, hsound⟩ := h (pindex, block) mem_cons_self hgenesis
      change block.vtx = [cb] at hvtx
      simp [hvtx, hf cb hcb hsound]
    · rfl

theorem outputKey_appliedTxs (h : GenesisBlocks rules chain) {o : OutPoint} {key : Point}
    (hkey : OutputKey rules.crypto (chainTxs chain) o key) :
    OutputKey rules.crypto (appliedTxs rules chain) o key := by
  obtain ⟨tx, htx, hv, hrest⟩ := hkey
  refine ⟨tx, ?_, hv, hrest⟩
  have hmem : tx ∈ (chainTxs chain).flatMap
      (fun t => if t.version = pricoinCTVersion then [t] else []) :=
    mem_flatMap.mpr ⟨tx, htx, by simp [hv]⟩
  rw [flatMap_chainTxs (fun cb hcb hsound => if_neg (hsound.not_v4_of_coinbase hcb)) h] at hmem
  obtain ⟨t, ht, htx⟩ := mem_flatMap.mp hmem
  split at htx
  · exact mem_singleton.mp htx ▸ ht
  · simp at htx

theorem spentOnce_chainTxs (h : GenesisBlocks rules chain)
    (hspent : SpentOnce rules.crypto keyImage (appliedTxs rules chain)) :
    SpentOnce rules.crypto keyImage (chainTxs chain) := by
  intro o key hkey
  have hone := hspent o key (outputKey_appliedTxs h hkey)
  unfold spends at hone ⊢
  rwa [flatMap_chainTxs (fun cb hcb hsound => hsound.keyImages_of_coinbase hcb) h,
    flatMap_chainTxs (fun cb hcb _ => by simp [directPrevouts, hcb]) h]

/-- The state of the chain accounts for the transactions applied to it. -/
structure ChainSpends (rules : Rules) (keyImage : Point → Point) (s : Chainstate) : Prop where
  applied : Applied rules keyImage s.store.images.members s.chain.length
    (appliedTxs rules s.chain) ⟨s.tip.coins, 0, 0, [], []⟩
  genesis : GenesisBlocks rules s.chain

theorem Ledger.mono {height' : ℕ} (h : Ledger crypto height done view) (hle : height ≤ height') :
    Ledger crypto height' done view where
  __ := h
  coinbases tx htx hcb := by
    obtain ⟨h', hlt, hpush⟩ := h.coinbases tx htx hcb
    exact ⟨h', by omega, hpush⟩

theorem firstScript_coinbase {block : Block} {cb : Transaction} (h : block.vtx = cb :: txs) :
    coinbaseScript block = firstScript cb := by
  simp [coinbaseScript, h, firstScript]

theorem chainSpends_connectNext (hgenesis : GenesisPlain rules) {s s' : Chainstate}
    {b : ActiveBlock} (h : connectNext rules keys s b = .ok s')
    (hway : OneWayBlock rules keyImage s b)
    (hapart : TxidsApart rules.crypto (appliedTxs rules s'.chain))
    (hs : ChainSpends rules keyImage s) : ChainSpends rules keyImage s' := by
  obtain ⟨pindex, block⟩ := b
  simp only [connectNext, bind_ok] at h
  obtain ⟨u, haccept, h⟩ := h
  obtain ⟨hanc, c, hc, rfl⟩ := connectTip_ok h
  rcases connectBlock_ok hc with ⟨hhash, hblock, hcheck, rfl⟩ | ⟨p, hconn⟩
  · have hskip : appliedTxs rules ((pindex, block) :: s.chain) = appliedTxs rules s.chain := by
      simp [appliedTxs_cons, hhash]
    refine ⟨⟨?_, ?_, ?_⟩, ?_⟩
    · rw [hskip]
      exact hs.applied.ledger.mono (Nat.le_succ _)
    · rw [hskip]
      exact hs.applied.exclusive
    · rw [hskip]
      exact hs.applied.images
    · exact forall_mem_cons.mpr
        ⟨fun _ => hgenesis.coinbase (hblock.symm.trans hhash) hcheck, hs.genesis⟩
  · obtain ⟨hchecked, hpush⟩ := acceptBlock_ok haccept
    obtain ⟨cb, txs, hvtx, hcb, htxs⟩ := hchecked.coinbase
    have hsound := hchecked.sound
    rw [hvtx] at hsound
    have hgrow : appliedTxs rules ((pindex, block) :: s.chain) =
        appliedTxs rules s.chain ++ [cb] ++ txs := by
      simp [appliedTxs_cons, hconn.notGenesis, hvtx]
    have hheight : pindex.nHeight = s.chain.length := by
      rw [BlockIndex.nHeight, hanc, chainHashes, length_map]
    have hstart : pushInt s.chain.length <+: firstScript cb := by
      rw [← firstScript_coinbase hvtx, ← hheight]
      exact hpush hconn.parent
    have hlt : s.chain.length < 2 ^ 64 := by
      have := pindex.height_lt
      rw [← hheight, BlockIndex.nHeight]
      omega
    have hways := OneWayAll.mono hway (@appliedTxs_subset rules s.chain)
    have hloop := hconn.loop
    rw [hvtx] at hways hloop
    simp only [connectTxs, bind_ok] at hloop
    obtain ⟨q, hq, hrest⟩ := hloop
    change TxidsApart rules.crypto (appliedTxs rules ((pindex, block) :: s.chain)) at hapart
    rw [hgrow] at hapart
    have hfirst := hs.applied.connectTx (s.chain.length + 1) (hsound cb mem_cons_self)
      (hapart.mono (subset_append_left _ _)) hways.1
      (fun _ => ⟨hlt, hstart⟩) (Nat.le_succ _) (fun _ => Nat.lt_succ_self _) (connectTx_ok hq)
    have hend := hfirst.connectTxs (fun tx htx => ⟨hsound tx (mem_cons_of_mem _ htx),
      htxs tx htx⟩) hapart hways.2 hrest
    obtain rfl := hconn.result
    refine ⟨⟨?_, ?_, fun ki hki => .inl ?_⟩, ?_⟩
    · rw [hgrow]
      exact hend.ledger
    · rw [hgrow]
      exact hend.exclusive
    · rw [hgrow] at hki
      exact members_commitBlockKIs.mpr (hend.images ki hki)
    · exact forall_mem_cons.mpr ⟨fun hg => absurd hg hconn.notGenesis, hs.genesis⟩

theorem chainSpends_empty {store : Store} :
    ChainSpends rules keyImage (emptyChain store) where
  applied := ⟨Ledger.empty 0, by simp [Exclusive, emptyChain, appliedTxs],
    by simp [emptyChain, appliedTxs]⟩
  genesis := by simp [GenesisBlocks, emptyChain]

/-- In every run of block connections from an empty chainstate whose blocks spend no output in
both ways, every output of the chain is spent at most once, by ring and direct inputs together.
Transactions are told apart by their identifiers. -/
theorem spentOnce_of_oneWay (hgenesis : GenesisPlain rules) {store : Store}
    {blocks : List ActiveBlock} {s : Chainstate}
    (h : run (connectNext rules keys) (emptyChain store) blocks = .ok s)
    (hapart : TxidsApart rules.crypto (appliedTxs rules s.chain))
    (hways : AlwaysOk (connectNext rules keys) (OneWayBlock rules keyImage) (emptyChain store)
      blocks) :
    SpentOnce rules.crypto keyImage (chainTxs s.chain) := by
  -- identifiers that are apart in the end were apart on the way
  have hinv := hways.invariant
    (fun t => TxidsApart rules.crypto (appliedTxs rules t.chain) → ChainSpends rules keyImage t)
    (fun t b t' hway hstep ht hapart' => by
      refine chainSpends_connectNext hgenesis hstep hway hapart' (ht (hapart'.mono ?_))
      rw [connectNext_chain hstep, appliedTxs_cons]
      exact subset_append_left _ _) h (fun _ => chainSpends_empty)
  obtain ⟨happlied, hblocks⟩ := hinv hapart
  exact spentOnce_chainTxs hblocks (spentOnce_of_exclusive happlied.ledger.images
    happlied.ledger.once happlied.exclusive)

end Chains

section Sample

theorem sampleTxids_apart :
    TxidsApart sampleCrypto (appliedTxs sampleRules (sampleBlocks ++ [sampleRespend]).reverse) := by
  have hchain : ((appliedTxs sampleRules (sampleBlocks ++ [sampleRespend]).reverse).map
      (fun tx => sampleValue (sampleCrypto.txid tx))).IsChain (· < ·) := by
    decide +kernel
  have hnodup := (isChain_iff_pairwise.mp hchain).imp fun h => Nat.ne_of_lt h
  intro tx htx tx' htx' heq
  rw [inj_on_of_nodup_map hnodup htx htx' (congrArg sampleValue heq)]

/-- The ring spend leaves the coin in place, and the later direct spend of it is accepted. -/
theorem not_spentOnce_ring_then_direct :
    ∃ s, run (connectNext sampleRules samplePubKeys) (emptyChain ⟨.empty, none, true⟩)
        (sampleBlocks ++ [sampleRespend]) = .ok s ∧
      (∀ members sig msg, sampleCrypto.verifyMultiLayer members sig msg = true →
        ∃ m ∈ members, sig.keyImage = id m.1) ∧
      TxidsApart sampleCrypto (appliedTxs sampleRules s.chain) ∧
      ¬ SpentOnce sampleCrypto id (chainTxs s.chain) := by
  obtain ⟨s, hs, -⟩ := succeeds_iff.mp sampleBlocks_run
  have hchain : s.chain = (sampleBlocks ++ [sampleRespend]).reverse := by
    rw [run_connectNext_chain hs]
    exact append_nil _
  refine ⟨s, hs, fun members sig msg h => ?_, hchain ▸ sampleTxids_apart, fun hspent => ?_⟩
  · obtain ⟨m, hm, heq⟩ := mem_map.mp (of_decide_eq_true h)
    exact ⟨m, hm, heq.symm⟩
  · rw [hchain] at hspent
    have htwo : spends id (chainTxs (sampleBlocks ++ [sampleRespend]).reverse)
        sampleSpendRef.outPoint (.replicate 33 50) = 2 := by
      decide +kernel
    have hkey : OutputKey sampleCrypto (chainTxs (sampleBlocks ++ [sampleRespend]).reverse)
        sampleSpendRef.outPoint (.replicate 33 50) := by
      refine ⟨sampleSpend, ?_, rfl, by rw [sampleSpendRef, PrevoutRef.outPoint], sampleOutput 50,
        ?_, rfl⟩
      · simp [chainTxs, sampleBlocks, sampleActive, sampleBlock]
      · rfl
    have hone := hspent _ _ hkey
    omega

/-- Only coinbases have been applied. -/
def OnlyCoinbases (done : List Transaction) : Prop :=
  ∀ tx ∈ done, ∃ script, tx = sampleCoinbase script

theorem OnlyCoinbases.oneWay (h : OnlyCoinbases done) (tx : Transaction) :
    OneWay sampleCrypto id done tx := by
  have hkeys : ∀ o key, ¬ OutputKey sampleCrypto done o key := by
    rintro o key ⟨t, ht, hv, -⟩
    obtain ⟨script, rfl⟩ := h t ht
    simp [sampleCoinbase, pricoinCTVersion] at hv
  exact ⟨fun o _ key hkey => absurd hkey (hkeys o key),
    fun ki _ o _ key hkey => absurd hkey (hkeys o key)⟩

/-- The ring spend of an output whose transaction has spent a coinbase. -/
theorem OnlyCoinbases.oneWay_ring (h : OnlyCoinbases done) :
    OneWay sampleCrypto id (done ++ [sampleSpend]) (sampleRing sampleSpendRef 50 60) := by
  refine ⟨fun o ho => absurd ho (by simp [directPrevouts, show
    (sampleRing sampleSpendRef 50 60).isV4Ring = true from rfl]), fun ki _ o ho key hkey => ?_⟩
  have hapart : sampleCrypto.txid (sampleCoinbase (sampleScript 1)) ≠
      sampleCrypto.txid sampleSpend := by
    decide +kernel
  have hspent : o.hash = sampleCrypto.txid (sampleCoinbase (sampleScript 1)) := by
    obtain ⟨t, ht, ho⟩ := mem_flatMap.mp ho
    rcases mem_append.mp ht with ht | ht
    · obtain ⟨script, rfl⟩ := h t ht
      simp [directPrevouts, show (sampleCoinbase script).isCoinBase = true from rfl] at ho
    · rw [mem_singleton.mp ht] at ho
      obtain rfl := mem_singleton.mp ho
      rfl
  obtain ⟨t, ht, hv, hhash, -⟩ := hkey
  rcases mem_append.mp ht with ht | ht
  · obtain ⟨script, rfl⟩ := h t ht
    simp [sampleCoinbase, pricoinCTVersion] at hv
  · rw [mem_singleton.mp ht] at hhash
    exact absurd (hspent.symm.trans hhash) hapart

/-- Up to the ring spend the sample chain is one-way. -/
theorem sampleBlocks_oneWay :
    AlwaysOk (connectNext sampleRules samplePubKeys) (OneWayBlock sampleRules id)
      (emptyChain ⟨.empty, none, true⟩) sampleBlocks := by
  have hempty (s : Chainstate) (n : ℕ) :
      OneWay sampleCrypto id (chainTxs s.chain) (sampleCoinbase (sampleScript n)) :=
    ⟨by simp [directPrevouts, show (sampleCoinbase (sampleScript n)).isCoinBase = true from rfl],
      by simp [show (sampleCoinbase (sampleScript n)).keyImages = [] from rfl]⟩
  refine alwaysOk_append (alwaysOk_of_forall (fun b hb t => ?_) _)
    fun t ht => ⟨?_, by simp [AlwaysOk]⟩
  · obtain ⟨n, -, rfl⟩ := mem_map.mp hb
    exact ⟨hempty t n, trivial⟩
  · have honly : OnlyCoinbases (chainTxs t.chain ++ [sampleCoinbase (sampleScript 101)]) := by
      intro tx htx
      simp only [run_connectNext_chain ht, emptyChain, chainTxs, append_nil,
        reverse_reverse, mem_append, mem_flatMap, mem_map,
        mem_singleton] at htx
      rcases htx with ⟨b, ⟨n, -, rfl⟩, htx⟩ | htx
      · exact ⟨sampleScript n, mem_singleton.mp htx⟩
      · exact ⟨sampleScript 101, htx⟩
    exact ⟨hempty t 101, honly.oneWay sampleSpend, honly.oneWay_ring, trivial⟩

theorem spentOnce_of_oneWay_sample :
    ∃ s, run (connectNext sampleRules samplePubKeys) (emptyChain ⟨.empty, none, true⟩)
        sampleBlocks = .ok s ∧
      SpentOnce sampleCrypto id (chainTxs s.chain) := by
  obtain ⟨t, ht, -⟩ := succeeds_iff.mp sampleBlocks_run
  obtain ⟨s, hs, -⟩ := run_append.mp ht
  refine ⟨s, hs, spentOnce_of_oneWay sampleRules_genesisPlain hs (sampleTxids_apart.mono ?_)
    sampleBlocks_oneWay⟩
  simp only [run_connectNext_chain hs, emptyChain, appliedTxs, append_nil,
    reverse_reverse, flatMap_append]
  exact subset_append_left _ _

end Sample

end Pricoin.SpendExclusivity
