import Mathlib.Algebra.Order.BigOperators.Group.List
import Pricoin.RecoveryIndex
import Pricoin.TxChecks

/-!
The confidential balance. It adds up the recovered outputs whose key image is neither
committed nor on its way. Outputs are spent by key image, and nothing keeps others from
paying twice to one key: of the outputs with one key image a single one can be spent,
and the balance has them all.
-/
namespace Pricoin.ConfidentialBalance

open KeyImageFile Transactions Coins TxChecks StealthScan RecoveryIndex Runs List Option
open StealthScan (Identity)
open DurableRecords (Sealing)

/-- The key image of an output is not taken for spent. -/
def counts (committed : Finset Point) (broadcasted inMempool : Point → Bool)
    (rec : CachedRecovery) : Bool :=
  !(decide (rec.keyImage ∈ committed) || broadcasted rec.keyImage || inMempool rec.keyImage)

/-- The loop over the entries of the index. -/
def balanceOf (committed : Finset Point) (broadcasted inMempool : Point → Bool)
    (entries : Entries) : ℤ :=
  entries.toList.foldl
    (fun total e =>
      if counts committed broadcasted inMempool e.2 then total + e.2.value.toInt else total) 0

/-- Nothing when the index cannot be brought up to date. -/
def confidentialBalance {β ι : Type} {T : BlockTree β} (crypto : Crypto) (lib : ScanLibrary)
    (id : Identity Point) (seals : Sealing ι) (env : Conditions ι) (w : Wallet T ι)
    (committed : Finset Point) (broadcasted inMempool : Point → Bool) : Option ℤ :=
  (syncRecoveryIndex crypto lib id seals env w).1.map fun index =>
    balanceOf committed broadcasted inMempool index.entries

/-- Key images that can be committed one after the other. -/
def SpentInTurn (committed : Finset Point) : List Point → Prop
  | [] => True
  | ki :: kis => ki ∉ committed ∧ SpentInTurn (insert ki committed) kis

theorem spentInTurn_iff {committed : Finset Point} {kis : List Point} :
    SpentInTurn committed kis ↔ kis.Nodup ∧ ∀ ki ∈ kis, ki ∉ committed := by
  induction kis generalizing committed with
  | nil => simp [SpentInTurn]
  | cons ki kis ih =>
    rw [SpentInTurn, ih, nodup_cons]
    constructor
    · rintro ⟨hki, hnodup, hrest⟩
      refine ⟨⟨fun hmem => hrest ki hmem (Finset.mem_insert_self ki committed), hnodup⟩, ?_⟩
      rintro ki' (_ | ⟨_, hmem⟩)
      · exact hki
      · exact fun hcommitted => hrest ki' hmem (Finset.mem_insert_of_mem hcommitted)
    · rintro ⟨⟨hnew, hnodup⟩, hfree⟩
      refine ⟨hfree ki mem_cons_self, hnodup, ?_⟩
      intro ki' hmem hinsert
      rcases Finset.mem_insert.mp hinsert with rfl | hcommitted
      · exact hnew hmem
      · exact hfree ki' (mem_cons_of_mem _ hmem) hcommitted

/-- Ring inputs that are accepted, the key image of each committed before the next. -/
def AcceptedInTurn (crypto : Crypto) (view : CoinsView) (nSpendHeight : ℕ) (msg : Uint256) :
    Finset Point → List CTRingInput → Prop
  | _, [] => True
  | committed, ri :: ris =>
    verifyRingInput crypto view committed nSpendHeight msg ri = .ok () ∧
      AcceptedInTurn crypto view nSpendHeight msg (insert ri.sig.keyImage committed) ris

theorem spentInTurn_of_accepted {crypto : Crypto} {view : CoinsView} {nSpendHeight : ℕ}
    {msg : Uint256} {committed : Finset Point} {ris : List CTRingInput}
    (h : AcceptedInTurn crypto view nSpendHeight msg committed ris) :
    SpentInTurn committed (ris.map fun ri => ri.sig.keyImage) := by
  induction ris generalizing committed with
  | nil => trivial
  | cons ri ris ih => exact ⟨(verifyRingInput_ok h.1).fresh, ih h.2⟩

/-- A set of recovered outputs that can all be spent, as a part of the entries. This is by key image
only: a coin that was spent directly, which commits no key image, still counts. -/
structure Spendable (committed : Finset Point) (entries : Entries)
    (S : List (PrevoutRef × CachedRecovery)) : Prop where
  sublist : S.Sublist entries.toList
  inTurn : SpentInTurn committed (S.map fun e => e.2.keyImage)

def totalValue (S : List (PrevoutRef × CachedRecovery)) : ℤ := (S.map fun e => e.2.value.toInt).sum

/-- No two outputs with a value and an uncommitted key image have the key image in common. -/
def SpentApart (committed : Finset Point) (entries : Entries) : Prop :=
  ∀ e ∈ entries.toList, ∀ e' ∈ entries.toList, e.2.keyImage ∉ committed → e.2.value ≠ 0 →
    e'.2.value ≠ 0 → e.2.keyImage = e'.2.keyImage → e = e'

instance (committed : Finset Point) (entries : Entries) :
    Decidable (SpentApart committed entries) :=
  inferInstanceAs (Decidable (∀ e ∈ entries.toList, ∀ e' ∈ entries.toList, _))

variable {committed : Finset Point} {broadcasted inMempool : Point → Bool} {entries : Entries}

theorem foldl_counted (p : PrevoutRef × CachedRecovery → Bool)
    (es : List (PrevoutRef × CachedRecovery)) (total : ℤ) :
    es.foldl (fun total e => if p e then total + e.2.value.toInt else total) total =
      total + totalValue (es.filter p) := by
  induction es generalizing total with
  | nil => simp [totalValue]
  | cons e es ih =>
    rw [foldl_cons, ih, filter_cons]
    split
    · simp only [totalValue, map_cons, sum_cons]
      omega
    · rfl

/-- The balance is the value of the outputs that count. -/
theorem balanceOf_eq (entries : Entries) :
    balanceOf committed broadcasted inMempool entries = totalValue (entries.toList.filter
      fun e => counts committed broadcasted inMempool e.2) := by
  rw [balanceOf, foldl_counted, zero_add]

theorem not_mem_of_counts {rec : CachedRecovery}
    (h : counts committed broadcasted inMempool rec = true) : rec.keyImage ∉ committed := by
  simp only [counts, Bool.not_eq_true', Bool.or_eq_false_iff, decide_eq_false_iff_not] at h
  exact h.1.1

theorem nodup_toList (entries : Entries) : entries.toList.Nodup := by
  refine List.Pairwise.imp ?_ (Std.ExtTreeMap.distinct_keys_toList (t := entries))
  rintro a b hne rfl
  exact hne Std.ReflCmp.compare_self

theorem totalValue_filter_ne_zero (es : List (PrevoutRef × CachedRecovery)) :
    totalValue (es.filter fun e => e.2.value ≠ 0) = totalValue es := by
  induction es with
  | nil => rfl
  | cons e es ih =>
    rw [filter_cons]
    split
    case isTrue h =>
      simp only [totalValue, map_cons, sum_cons] at ih ⊢
      rw [ih]
    case isFalse h =>
      have hzero : e.2.value = 0 := by simpa using h
      rw [ih]
      simp [totalValue, hzero]

/-- When no key image is shared, the outputs that count can all be spent. -/
theorem balance_le_of_spentApart (h : SpentApart committed entries)
    (broadcasted inMempool : Point → Bool) :
    ∃ S, Spendable committed entries S ∧
      balanceOf committed broadcasted inMempool entries ≤ totalValue S := by
  let counted := entries.toList.filter fun e => counts committed broadcasted inMempool e.2
  let S := counted.filter fun e => e.2.value ≠ 0
  have hsublist : S.Sublist entries.toList := filter_sublist.trans filter_sublist
  have hmem : ∀ e ∈ S, e ∈ entries.toList ∧ e.2.keyImage ∉ committed ∧ e.2.value ≠ 0 := by
    intro e he
    obtain ⟨hcounted, hvalue⟩ := mem_filter.mp he
    obtain ⟨hentry, hcounts⟩ := mem_filter.mp hcounted
    exact ⟨hentry, not_mem_of_counts hcounts, of_decide_eq_true hvalue⟩
  refine ⟨S, ⟨hsublist, spentInTurn_iff.mpr ⟨?_, ?_⟩⟩, ?_⟩
  · refine List.Nodup.map_on ?_ ((nodup_toList entries).sublist hsublist)
    intro e he e' he' hsame
    obtain ⟨hentry, hfree, hvalue⟩ := hmem e he
    obtain ⟨hentry', -, hvalue'⟩ := hmem e' he'
    exact h e hentry e' hentry' hfree hvalue hvalue' hsame
  · intro ki hki
    obtain ⟨e, he, rfl⟩ := mem_map.mp hki
    exact (hmem e he).2.1
  · rw [balanceOf_eq, totalValue_filter_ne_zero]

/-- Values are not negative as long as they are below 2^63. -/
def Nonnegative (committed : Finset Point) (entries : Entries) : Prop :=
  ∀ e ∈ entries.toList, e.2.keyImage ∉ committed → 0 ≤ e.2.value.toInt

instance (committed : Finset Point) (entries : Entries) :
    Decidable (Nonnegative committed entries) :=
  inferInstanceAs (Decidable (∀ e ∈ entries.toList, _))

theorem toInt_pos {value : Int64} (hne : value ≠ 0) (h : 0 ≤ value.toInt) : 0 < value.toInt := by
  refine lt_of_le_of_ne h fun hzero => hne ?_
  exact Int64.toInt_inj.mp (by simpa using hzero.symm)

theorem totalValue_le_of_sublist {S es : List (PrevoutRef × CachedRecovery)} (h : S.Sublist es)
    (hes : ∀ e ∈ es, 0 ≤ e.2.value.toInt) : totalValue S ≤ totalValue es := by
  refine List.Sublist.sum_le_sum (h.map _) ?_
  intro value hvalue
  obtain ⟨e, he, rfl⟩ := mem_map.mp hvalue
  exact hes e he

/-- A balance that can be spent when nothing is on its way has no shared key images. -/
theorem spentApart_of_balance_le (hvalues : Nonnegative committed entries)
    {S : List (PrevoutRef × CachedRecovery)} (hS : Spendable committed entries S)
    (hle : balanceOf committed (fun _ => false) (fun _ => false) entries ≤ totalValue S) :
    SpentApart committed entries := by
  obtain ⟨hnodup, hfree⟩ := spentInTurn_iff.mp hS.inTurn
  let free := entries.toList.filter fun e => counts committed (fun _ => false) (fun _ => false) e.2
  have hmem : ∀ e, e ∈ free ↔ e ∈ entries.toList ∧ e.2.keyImage ∉ committed := by
    intro e
    simp [free, counts]
  have hsub : S.Sublist free := by
    have hfilter := hS.sublist.filter fun e =>
      counts committed (fun _ => false) (fun _ => false) e.2
    rwa [filter_eq_self.mpr] at hfilter
    intro e he
    simpa [counts] using hfree _ (mem_map_of_mem he)
  have hpositive : ∀ e ∈ free, 0 ≤ e.2.value.toInt := by
    intro e he
    obtain ⟨hentry, hki⟩ := (hmem e).mp he
    exact hvalues e hentry hki
  -- an output with a value that is left out makes the part smaller than the whole
  have hall : ∀ e ∈ free, e.2.value ≠ 0 → e ∈ S := by
    intro e he hne
    by_contra hout
    have herase : S.Sublist (free.erase e) := by
      have h := hsub.erase e
      rwa [erase_of_not_mem hout] at h
    have hrest := totalValue_le_of_sublist herase fun e' he' =>
      hpositive e' (mem_of_mem_erase he')
    have hsplit : totalValue free = e.2.value.toInt + totalValue (free.erase e) := by
      simpa [totalValue] using
        ((perm_cons_erase he).map fun e => e.2.value.toInt).sum_eq
    have hpos := toInt_pos hne (hpositive e he)
    rw [balanceOf_eq] at hle
    change totalValue free ≤ totalValue S at hle
    omega
  intro e he e' he' hki hvalue hvalue' hsame
  have hin := hall e ((hmem e).mpr ⟨he, hki⟩) hvalue
  have hin' := hall e' ((hmem e').mpr ⟨he', hsame ▸ hki⟩) hvalue'
  exact inj_on_of_nodup_map hnodup hin hin' hsame

section Wallets

variable {β ι : Type} {T : BlockTree β}

/-- What the wallet reports can be spent out of the outputs of its index. -/
def Covered (crypto : Crypto) (lib : ScanLibrary) (id : Identity Point) (seals : Sealing ι)
    (env : Conditions ι) (w : Wallet T ι) (committed : Finset Point)
    (broadcasted inMempool : Point → Bool) (index : Index) : Prop :=
  ∃ balance S, confidentialBalance crypto lib id seals env w committed broadcasted inMempool =
      some balance ∧ Spendable committed index.entries S ∧ balance ≤ totalValue S

/-- The reported balance can be spent, whatever is on its way, when no two recovered outputs
share an uncommitted key image, and as long as values are not negative only then. -/
theorem covered_iff_spentApart (crypto : Crypto) (lib : ScanLibrary) (id : Identity Point)
    (seals : Sealing ι) (env : Conditions ι) (w : Wallet T ι) (committed : Finset Point)
    {index : Index} (hindex : (syncRecoveryIndex crypto lib id seals env w).1 = some index) :
    (SpentApart committed index.entries → ∀ broadcasted inMempool,
      Covered crypto lib id seals env w committed broadcasted inMempool index) ∧
    (Nonnegative committed index.entries → (∀ broadcasted inMempool,
      Covered crypto lib id seals env w committed broadcasted inMempool index) →
        SpentApart committed index.entries) := by
  have hbalance : ∀ broadcasted inMempool,
      confidentialBalance crypto lib id seals env w committed broadcasted inMempool =
        some (balanceOf committed broadcasted inMempool index.entries) := by
    intro broadcasted inMempool
    rw [confidentialBalance, hindex, map_some]
  constructor
  · intro hapart broadcasted inMempool
    obtain ⟨S, hS, hle⟩ := balance_le_of_spentApart hapart broadcasted inMempool
    exact ⟨_, S, hbalance broadcasted inMempool, hS, hle⟩
  · intro hvalues hcovered
    obtain ⟨balance, S, hsome, hS, hle⟩ := hcovered (fun _ => false) (fun _ => false)
    rw [hbalance, some.injEq] at hsome
    subst hsome
    exact spentApart_of_balance_le hvalues hS hle

/-- After a steady history, the balance at the tip can be spent out of what a pass over the active
chain finds, when no two of these outputs share an uncommitted key image. -/
theorem exists_spendable_of_steady {crypto : Crypto} {lib : ScanLibrary} {id : Identity Point}
    {seals : Sealing ι} {w : Wallet T ι} (hindex : w.index = none) (hcache : w.cache = none)
    {events : List (Event T ι)} {env : Conditions ι}
    (hsteady : Always (step crypto lib id seals) (Steady lib id) w (events ++ [.sync env]))
    {last : Wallet T ι} (hlast : events.foldl (step crypto lib id seals) w = last) {index : Index}
    (hreturn : (syncRecoveryIndex crypto lib id seals env last).1 = some index)
    (htip : index.lastScannedHeight = last.chain.tipHeight) {found : Entries}
    (hfound : fullScan crypto lib id last.chain (buildSubaddressLookup lib id
      (syncRecoveryIndex crypto lib id seals env last).2.subaddresses.maxUsedIndex) = found)
    (hapart : SpentApart committed found) (broadcasted inMempool : Point → Bool) :
    ∃ balance S, confidentialBalance crypto lib id seals env last committed broadcasted
      inMempool = some balance ∧ Spendable committed found S ∧ balance ≤ totalValue S := by
  subst hlast
  have hentries : index.entries = found :=
    ((synced_of_steady hindex hcache hsteady).full index hreturn htip).trans hfound
  obtain ⟨S, hS, hle⟩ := balance_le_of_spentApart hapart broadcasted inMempool
  refine ⟨_, S, ?_, hS, hle⟩
  rw [confidentialBalance, hreturn, map_some, hentries]

theorem covered_payment :
    ∃ index, (syncRecoveryIndex sampleCrypto sampleLibrary sampleIdentity sampleSealing calm
        (sampleWallet [0])).1 = some index ∧ ∀ broadcasted inMempool,
      Covered sampleCrypto sampleLibrary sampleIdentity sampleSealing calm (sampleWallet [0]) ∅
        broadcasted inMempool index :=
  ⟨_, rfl, (covered_iff_spentApart sampleCrypto sampleLibrary sampleIdentity sampleSealing calm
    (sampleWallet [0]) ∅ rfl).1 (by decide +kernel)⟩

/-- Two transactions that pay to one key. -/
def twiceTree : BlockTree Unit where
  vtx _ := [payment 5, { payment 5 with vin := (payment 6).vin }]
  getHash _ := nullHash
  prevHash _ := nullHash
  getHash_injective _ _ _ := rfl

def twiceWallet : Wallet twiceTree Unit where
  chain := ⟨[()], isChain_singleton _, length_genesis_le⟩
  index := none
  cache := none
  subaddresses := ⟨none, none⟩

/-- Both outputs are in the balance, and their key image can be committed once. -/
theorem counted_twice :
    ∃ index, (syncRecoveryIndex sampleCrypto sampleLibrary sampleIdentity sampleSealing calm
        twiceWallet).1 = some index ∧
      ¬ Covered sampleCrypto sampleLibrary sampleIdentity sampleSealing calm twiceWallet ∅
        (fun _ => false) (fun _ => false) index := by
  refine ⟨_, rfl, ?_⟩
  rintro ⟨balance, S, hsome, hS, hle⟩
  obtain rfl := some.inj hsome
  exact absurd (spentApart_of_balance_le (by decide +kernel) hS hle) (by decide +kernel)

end Wallets

end Pricoin.ConfidentialBalance
