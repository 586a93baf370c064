import Mathlib.Algebra.Order.Field.Rat
import Mathlib.Algebra.Order.Ring.Abs
import Mathlib.Tactic.FieldSimp
import Mathlib.Tactic.Linarith
import Pricoin.OrderRows

/-!
Prices in the order book. A match is made at the rate of the selling order, rounded down, so
that the buyer pays no more than their limit and the seller may miss theirs by less than one
unit. The candidates for a match are sorted by a cross product of the amounts, which grows with
the size of the candidate as well as with its rate.
-/
namespace Pricoin.OrderBook

open ByteStreams KeyImageFile Std List Option
open DurableRecords (Sealing)
open Runs

variable {orders : Orders} {id : Uint256} {o : Order}

variable {mine theirs : Order} {now : Int64} {myOrderId : Uint256} {c : MatchCandidate}

section Limits

/-- The buying order of a match. -/
def bidOf (mine theirs : Order) : Order := if mine.payload.side = buyPric then mine else theirs

/-- The selling order of a match. -/
def askOf (mine theirs : Order) : Order := if mine.payload.side = sellPric then mine else theirs

/-- The amounts of an offer are checked when it is created, imported or reduced. -/
def Listed (o : Order) : Prop :=
  0 < o.payload.maxPricAmountSat ∧ 0 < o.payload.foreignAmountAtMaxSat

instance decidableListed (o : Order) : Decidable (Listed o) :=
  inferInstanceAs (Decidable (_ ∧ _))

def AllListed (orders : Orders) : Prop :=
  ∀ (id : Uint256) (o : Order), orders[id]? = some o → Listed o

theorem Replaces.listed {lib : OfferLibrary} {call : Call} {changed : List Order}
    (hold : AllListed orders) (h : Replaces lib now orders call changed) :
    ∀ o ∈ changed, Listed o := by
  have hkept : (∀ o ∈ changed, Amended orders o) → ∀ o ∈ changed, Listed o := by
    intro hall o ho
    obtain ⟨id, prior, hprior, hamends⟩ := hall o ho
    rw [Listed, hamends.payload]
    exact hold id prior hprior
  cases h with
  | create _ hpos hforeign _ => exact forall_mem_singleton.mpr ⟨hpos, hforeign⟩
  | importOffer _ hpos hforeign _ => exact forall_mem_singleton.mpr ⟨hpos, hforeign⟩
  | update _ hpos hforeign hplan =>
    unfold planUpdate at hplan
    split at hplan
    · cases hplan
    · repeat' split at hplan
      all_goals cases hplan
      · simp
      · exact forall_mem_singleton.mpr ⟨hpos, hforeign⟩
  | cancel hplan => exact hkept (amended_planCancel hplan).2
  | matchOrders _ hplan => exact hkept (amended_planMatch hplan).2
  | fill hplan => exact hkept (amended_planMatchedPair amends_applyFill hplan).2
  | linkSwap hplan => exact hkept (amended_planLink hplan).2
  | linkedFill hpos hplan => exact hkept (amended_planLinkedFill hpos hplan).2
  | unmatch hplan => exact hkept (amended_planMatchedPair amends_applyUnmatch hplan).2

/-- Every order of the book is listed, whatever was called. -/
theorem listed_run {ι : Type} (lib : OfferLibrary) (seals : Sealing ι)
    (calls : List (Conditions ι × Call)) :
    AllListed (calls.foldl (OrderBook.step lib seals) (.fresh ∅)).byId := by
  have hempty : AllListed ∅ := fun _ _ h => by simp at h
  have hplace : ∀ {orders : Orders} {now : Int64} {call : Call} {changed : List Order},
      AllListed orders → Replaces lib now orders call changed →
        AllListed (place orders changed) := by
    intro orders now call changed hold hchange id o ho
    rcases mem_of_place ho with ⟨hmem, -⟩ | hprior
    · exact hchange.listed hold o hmem
    · exact hold id o hprior
  have hsweep : ∀ (orders : Orders) (now : Int64), AllListed orders →
      AllListed (orders.map fun _ o => expire now o) := by
    intro orders now hold id o ho
    rw [ExtTreeMap.getElem?_map, map_eq_some_iff] at ho
    obtain ⟨prior, hprior, rfl⟩ := ho
    rw [Listed, (expire_kept prior).1]
    exact hold id prior hprior
  have hreached : Holds AllListed (calls.foldl (OrderBook.step lib seals) (.fresh ∅)) :=
    List.foldlRecOn calls _ ⟨rfl, rfl⟩ fun b hb call _ =>
      Holds.step hsweep (fun changed hchange => hplace (Holds.orders hempty hb) hchange)
        (fun orders _ _ _ changed horders hchange => hplace horders hchange) hempty hb
  exact hreached.byId hempty

/-- One of the orders buys and the other one sells. -/
def Opposed (mine theirs : Order) : Prop :=
  (mine.payload.side = buyPric ∧ theirs.payload.side = sellPric) ∨
    (mine.payload.side = sellPric ∧ theirs.payload.side = buyPric)

theorem Opposed.bidOf_comm (h : Opposed mine theirs) : bidOf theirs mine = bidOf mine theirs := by
  obtain ⟨hmine, htheirs⟩ | ⟨hmine, htheirs⟩ := h <;>
    simp [bidOf, hmine, htheirs, buyPric, sellPric]

theorem Opposed.askOf_comm (h : Opposed mine theirs) : askOf theirs mine = askOf mine theirs := by
  obtain ⟨hmine, htheirs⟩ | ⟨hmine, htheirs⟩ := h <;>
    simp [askOf, hmine, htheirs, buyPric, sellPric]

theorem Opposed.buys_iff (h : Opposed mine theirs) :
    theirs.payload.side = buyPric ↔ ¬ mine.payload.side = buyPric := by
  obtain ⟨hmine, htheirs⟩ | ⟨hmine, htheirs⟩ := h <;>
    simp [hmine, htheirs, buyPric, sellPric]

/-- The share of the foreign amount is the quotient rounded down. -/
theorem proRateForeign_eq_some {amount max foreign out : Int64} :
    proRateForeign amount max foreign = some out ↔
      0 ≤ amount ∧ 0 < max ∧ 0 ≤ foreign ∧ amount ≤ max ∧
        out.toInt = amount.toInt * foreign.toInt / max.toInt := by
  unfold proRateForeign
  simp only [ite_none_left_eq_some, not_or, Int64.not_lt, Int64.not_le, some.injEq]
  constructor
  · rintro ⟨⟨hamount, hmax, hforeign⟩, hle, hfits, rfl⟩
    refine ⟨hamount, hmax, hforeign, hle, ?_⟩
    have hnonneg : 0 ≤ amount.toInt * foreign.toInt / max.toInt :=
      Int.ediv_nonneg (Int.mul_nonneg (Int64.le_iff_toInt_le.mp hamount)
        (Int64.le_iff_toInt_le.mp hforeign)) (Int64.lt_iff_toInt_lt.mp hmax).le
    refine Int64.toInt_ofInt_of_le (by omega) ?_
    have hcap : Int64.maxValue.toInt = 2 ^ 63 - 1 := by decide
    omega
  · rintro ⟨hamount, hmax, hforeign, hle, hout⟩
    refine ⟨⟨hamount, hmax, hforeign⟩, hle, ?_, ?_⟩
    · rw [← hout]
      exact Int.not_lt.mpr out.toInt_le
    · rw [← hout, Int64.ofInt_toInt]

/-- Everything that a proposal has gone through, and what it says. -/
theorem evaluateMatch_eq_some {amount : Int64} {proposal : MatchProposal} :
    evaluateMatch mine theirs amount now = some proposal ↔
      IsTradeable mine now ∧ IsTradeable theirs now ∧
      mine.payload.foreignChain = theirs.payload.foreignChain ∧
      mine.payload.side ≠ theirs.payload.side ∧ 0 < amount ∧ amount ≤ mine.pricRemainingSat ∧
      amount ≤ theirs.pricRemainingSat ∧
      BidRateAtLeastAskRate (bidOf mine theirs) (askOf mine theirs) ∧
      ∃ foreign, proRateForeign amount (askOf mine theirs).payload.maxPricAmountSat
          (askOf mine theirs).payload.foreignAmountAtMaxSat = some foreign ∧
        proposal = ⟨amount, foreign, mine.payload.side = buyPric⟩ := by
  unfold evaluateMatch bidOf askOf
  simp only [ite_none_left_eq_some, not_or, not_not, Int64.not_le, Int64.not_lt, and_assoc]
  generalize (if mine.payload.side = sellPric then mine else theirs) = ask
  cases proRateForeign amount ask.payload.maxPricAmountSat ask.payload.foreignAmountAtMaxSat <;>
    simp [eq_comm]

/-- A match is made at the rate of the selling order, rounded down. The buyer pays at most their
limit, the seller gets less than one unit below theirs, and both parties compute the same. -/
theorem match_priced_between_limits {mine theirs : Order}
    (hbid : 0 ≤ (bidOf mine theirs).payload.maxPricAmountSat) {amount now : Int64}
    {proposal : MatchProposal} (h : evaluateMatch mine theirs amount now = some proposal) :
    proposal.actualPricAmountSat = amount ∧
    0 ≤ proposal.actualForeignAmountSat ∧
    (0 < proposal.actualForeignAmountSat ↔
      (askOf mine theirs).payload.maxPricAmountSat.toInt ≤
        amount.toInt * (askOf mine theirs).payload.foreignAmountAtMaxSat.toInt) ∧
    proposal.actualForeignAmountSat.toInt *
        (bidOf mine theirs).payload.maxPricAmountSat.toInt ≤
      amount.toInt * (bidOf mine theirs).payload.foreignAmountAtMaxSat.toInt ∧
    amount.toInt * (askOf mine theirs).payload.foreignAmountAtMaxSat.toInt <
      (proposal.actualForeignAmountSat.toInt + 1) *
        (askOf mine theirs).payload.maxPricAmountSat.toInt ∧
    (Opposed mine theirs → evaluateMatch theirs mine amount now =
      some { proposal with bidIsUs := !proposal.bidIsUs }) := by
  obtain ⟨htradeMine, htradeTheirs, hchain, hside, hpos, hleMine, hleTheirs, hrate, foreign,
    hforeign, rfl⟩ := evaluateMatch_eq_some.mp h
  obtain ⟨-, hmax, hnonneg, -, hquotient⟩ := proRateForeign_eq_some.mp hforeign
  have hbid' : 0 ≤ (bidOf mine theirs).payload.maxPricAmountSat.toInt :=
    Int64.le_iff_toInt_le.mp hbid
  have hmax' : 0 < (askOf mine theirs).payload.maxPricAmountSat.toInt :=
    Int64.lt_iff_toInt_lt.mp hmax
  have hamount : 0 < amount.toInt := Int64.lt_iff_toInt_lt.mp hpos
  have hdown := Int.ediv_mul_le (amount.toInt *
    (askOf mine theirs).payload.foreignAmountAtMaxSat.toInt) hmax'.ne'
  have hup := Int.lt_ediv_add_one_mul_self (amount.toInt *
    (askOf mine theirs).payload.foreignAmountAtMaxSat.toInt) hmax'
  rw [← hquotient] at hdown hup
  refine ⟨rfl, ?_, ?_, ?_, hup, ?_⟩
  · rw [Int64.le_iff_toInt_le, hquotient]
    exact Int.ediv_nonneg (Int.mul_nonneg hamount.le (Int64.le_iff_toInt_le.mp hnonneg)) hmax'.le
  · rw [Int64.lt_iff_toInt_lt, Int64.toInt_zero, hquotient]
    exact (Int.le_ediv_iff_mul_le hmax').trans (by rw [Int.zero_add, Int.one_mul])
  · -- the quotient is at most the seller's share, which the rates compare with the buyer's
    have hcross : foreign.toInt * (askOf mine theirs).payload.maxPricAmountSat.toInt *
        (bidOf mine theirs).payload.maxPricAmountSat.toInt ≤
        amount.toInt * (bidOf mine theirs).payload.foreignAmountAtMaxSat.toInt *
        (askOf mine theirs).payload.maxPricAmountSat.toInt := by
      calc foreign.toInt * (askOf mine theirs).payload.maxPricAmountSat.toInt *
            (bidOf mine theirs).payload.maxPricAmountSat.toInt
          ≤ amount.toInt * (askOf mine theirs).payload.foreignAmountAtMaxSat.toInt *
            (bidOf mine theirs).payload.maxPricAmountSat.toInt :=
          Int.mul_le_mul_of_nonneg_right hdown hbid'
        _ = amount.toInt * ((askOf mine theirs).payload.foreignAmountAtMaxSat.toInt *
            (bidOf mine theirs).payload.maxPricAmountSat.toInt) := Int.mul_assoc ..
        _ ≤ amount.toInt * ((bidOf mine theirs).payload.foreignAmountAtMaxSat.toInt *
            (askOf mine theirs).payload.maxPricAmountSat.toInt) :=
          Int.mul_le_mul_of_nonneg_left hrate hamount.le
        _ = _ := (Int.mul_assoc ..).symm
    rw [Int.mul_right_comm] at hcross
    exact Int.le_of_mul_le_mul_right hcross hmax'
  · intro hopposed
    refine evaluateMatch_eq_some.mpr ⟨htradeTheirs, htradeMine, hchain.symm, hside.symm, hpos,
      hleTheirs, hleMine, ?_, foreign, ?_, ?_⟩
    · rwa [hopposed.bidOf_comm, hopposed.askOf_comm]
    · rwa [hopposed.askOf_comm]
    · simp [hopposed.buys_iff]

/-- An offer of so many units at a foreign amount, with nothing taken. -/
def pricedOrder (side : UInt8) (max foreign : Int64) : Order :=
  newOrder ⟨1, sampleId 1, side, 0, max, foreign, 100, .replicate 33 2, [1]⟩ .imported
    [] 0

/-- One unit of an offer to sell three for two is given away for nothing. An order whose side is
neither of the two is priced by the rate of either order, depending on who asks. -/
theorem match_below_seller_limit :
    evaluateMatch (pricedOrder buyPric 3 2) (pricedOrder sellPric 3 2) 1 0 =
      some ⟨1, 0, true⟩ ∧ ¬ (1 : ℤ) * 2 ≤ 0 * 3 ∧
    evaluateMatch (pricedOrder buyPric 2 8) (pricedOrder 2 2 4) 2 0 = some ⟨2, 4, true⟩ ∧
    evaluateMatch (pricedOrder 2 2 4) (pricedOrder buyPric 2 8) 2 0 = some ⟨2, 8, false⟩ := by
  decide +kernel

/-- Two of three units for two, in between the limits of five for three and three for two. -/
theorem match_priced_between_limits_sample :
    (0 : Int64) ≤ 1 ∧ ((0 : Int64) < 1 ↔ (3 : ℤ) ≤ 2 * 2) ∧ (1 : ℤ) * 3 ≤ 2 * 5 ∧
    (2 : ℤ) * 2 < (1 + 1) * 3 ∧
    evaluateMatch (pricedOrder sellPric 3 2) (pricedOrder buyPric 3 5) 2 0 =
      some ⟨2, 1, false⟩ := by
  have hproposal : evaluateMatch (pricedOrder buyPric 3 5) (pricedOrder sellPric 3 2) 2 0 =
      some ⟨2, 1, true⟩ := by decide +kernel
  obtain ⟨-, hnonneg, hpos, hbuyer, hseller, hswap⟩ :=
    match_priced_between_limits (by decide) hproposal
  exact ⟨hnonneg, hpos, hbuyer, hseller, hswap (.inl ⟨rfl, rfl⟩)⟩

end Limits

section Ranking

/-- What an order asks or offers for a unit. -/
def rate (maxPricSat foreignAtMaxSat : Int64) : ℚ := foreignAtMaxSat.toInt / maxPricSat.toInt

def Order.rate (o : Order) : ℚ :=
  OrderBook.rate o.payload.maxPricAmountSat o.payload.foreignAmountAtMaxSat

def MatchCandidate.rate (c : MatchCandidate) : ℚ :=
  OrderBook.rate c.theirMaxPricSat c.theirForeignAtMaxSat

/-- The first rate is strictly better than the second for the owner of the order. -/
def Beats (mine : Order) (r s : ℚ) : Prop :=
  (mine.payload.side = buyPric ∧ r < s) ∨ (mine.payload.side = sellPric ∧ s < r)

/-- No candidate is followed by one with a better rate. -/
def BestFirst (mine : Order) (out : List MatchCandidate) : Prop :=
  out.Pairwise fun a c => ¬ Beats mine c.rate a.rate

/-- The candidates among the orders, as they are collected. -/
def candidates (myOrderId : Uint256) (mine : Order) (now : Int64) (orders : Orders) :
    List MatchCandidate :=
  orders.toList.filterMap fun entry => candidate myOrderId mine now entry.1 entry.2

/-- What `std::sort` may leave of a list. Equal advantages stand in any order. -/
structure Ranked (found out : List MatchCandidate) : Prop where
  perm : out.Perm found
  descending : out.Pairwise fun a c => c.priceAdvantageMilli ≤ a.priceAdvantageMilli

/-- The order is another one, and the two can be matched. -/
def Crosses (myOrderId : Uint256) (mine : Order) (now : Int64) (orders : Orders)
    (id : Uint256) (o : Order) : Prop :=
  orders[id]? = some o ∧ id ≠ myOrderId ∧
    (evaluateMatch mine o (min mine.pricRemainingSat o.pricRemainingSat) now).isSome

/-- What the owner would pay or get at their own rate for all of the other order, against its own
amount, times the size of their order. -/
def advantage (mine o : Order) : ℕ :=
  ((bidOf mine o).payload.foreignAmountAtMaxSat.toInt *
      (askOf mine o).payload.maxPricAmountSat.toInt -
    (askOf mine o).payload.foreignAmountAtMaxSat.toInt *
      (bidOf mine o).payload.maxPricAmountSat.toInt).natAbs

def maxAdvantage : ℕ := 2 ^ 63 - 1

theorem candidate_eq_some (h : candidate myOrderId mine now id o = some c) :
    id ≠ myOrderId ∧
    (evaluateMatch mine o (min mine.pricRemainingSat o.pricRemainingSat) now).isSome ∧
    c.rate = o.rate ∧ c.priceAdvantageMilli.toInt = min (advantage mine o) maxAdvantage := by
  unfold candidate at h
  simp only [ite_none_left_eq_some, some.injEq] at h
  obtain ⟨hid, -, -, -, -, hmatch, rfl⟩ := h
  refine ⟨hid, by simpa [isSome_iff_ne_none] using hmatch, rfl, ?_⟩
  change (if Int64.maxValue.toInt < (advantage mine o : ℤ) then Int64.maxValue
    else .ofInt (advantage mine o : ℤ)).toInt = _
  have hcap : Int64.maxValue.toInt = (maxAdvantage : ℤ) := by decide
  rw [hcap]
  split
  · rw [hcap]
    omega
  · rename_i hle
    have hmax : maxAdvantage = 2 ^ 63 - 1 := rfl
    rw [Int64.toInt_ofInt_of_le (by omega) (by omega)]
    omega

theorem exists_candidate (h : Crosses myOrderId mine now orders id o) :
    ∃ c ∈ candidates myOrderId mine now orders, c.rate = o.rate ∧
      c.priceAdvantageMilli.toInt = min (advantage mine o) maxAdvantage := by
  obtain ⟨ho, hid, hmatch⟩ := h
  obtain ⟨proposal, hproposal⟩ := isSome_iff_exists.mp hmatch
  obtain ⟨-, htrade, hchain, hside, hpos, -⟩ := evaluateMatch_eq_some.mp hproposal
  have hsome : (candidate myOrderId mine now id o).isSome := by
    simp [candidate, hid, htrade, hchain.symm, Ne.symm hside, Int64.not_le.mpr hpos, hproposal]
  obtain ⟨c, hc⟩ := isSome_iff_exists.mp hsome
  obtain ⟨-, -, hrate, hadvantage⟩ := candidate_eq_some hc
  exact ⟨c, mem_filterMap.mpr
    ⟨(id, o), ExtTreeMap.mem_toList_iff_getElem?_eq_some.mpr ho, hc⟩, hrate, hadvantage⟩

theorem crosses_of_mem (h : c ∈ candidates myOrderId mine now orders) :
    ∃ id o, Crosses myOrderId mine now orders id o ∧ c.rate = o.rate ∧
      c.priceAdvantageMilli.toInt = min (advantage mine o) maxAdvantage := by
  obtain ⟨⟨id, o⟩, hmem, hc⟩ := mem_filterMap.mp h
  obtain ⟨hid, hmatch, hrate, hadvantage⟩ := candidate_eq_some hc
  exact ⟨id, o, ⟨ExtTreeMap.mem_toList_iff_getElem?_eq_some.mp hmem, hid, hmatch⟩, hrate,
    hadvantage⟩

/-- The comparison by which the candidates are sorted. -/
def descending (a c : MatchCandidate) : Bool :=
  decide (c.priceAdvantageMilli ≤ a.priceAdvantageMilli)

theorem descending_trans (a b c : MatchCandidate) (hab : descending a b = true)
    (hbc : descending b c = true) : descending a c = true := by
  simp only [descending, decide_eq_true_eq] at *
  exact Int64.le_trans hbc hab

theorem descending_total (a b : MatchCandidate) : (descending a b || descending b a) = true := by
  simp only [descending, Bool.or_eq_true, decide_eq_true_eq]
  exact Int64.le_total _ _

theorem ranked_mergeSort (found : List MatchCandidate) :
    Ranked found (found.mergeSort descending) where
  perm := mergeSort_perm found descending
  descending := (pairwise_mergeSort descending_trans descending_total found).imp
    fun h => of_decide_eq_true h

/-- What the call answers is one of the lists that the sort may leave. -/
theorem ranked_findMatches {ι : Type} {seals : Sealing ι} {env : Conditions ι} {b b' : Book}
    {out : List MatchCandidate} (h : findMatches seals env myOrderId b = ((.ok, out), b'))
    (hmine : b'.byId[myOrderId]? = some mine) (htrade : IsTradeable mine env.now) :
    Ranked (candidates myOrderId mine env.now b'.byId) out := by
  unfold findMatches look access at h
  split at h
  · simp at h
  · split at h
    · simp at h
    · obtain ⟨hanswer, rfl⟩ := Prod.mk.inj h
      dsimp only at hanswer
      rw [hmine] at hanswer
      simp only [htrade, not_true_eq_false, if_false] at hanswer
      obtain ⟨-, rfl⟩ := Prod.mk.inj hanswer
      exact ranked_mergeSort _

/-- Of two candidates, either can come first if its advantage is not the smaller one. -/
theorem exists_ranked {found : List MatchCandidate} {a : MatchCandidate} (ha : a ∈ found)
    (hc : c ∈ found) (hne : a ≠ c) (hle : c.priceAdvantageMilli ≤ a.priceAdvantageMilli) :
    ∃ out, Ranked found out ∧ List.Sublist [a, c] out := by
  obtain ⟨before, after, rfl⟩ := append_of_mem ha
  have hrest : c ∈ before ++ after := by
    simp only [mem_append, mem_cons] at hc ⊢
    exact hc.imp id fun h => h.resolve_left hne.symm
  have hperm : (a :: (before ++ after)).Perm (before ++ a :: after) := perm_middle.symm
  have hranked := ranked_mergeSort (a :: (before ++ after))
  refine ⟨(a :: (before ++ after)).mergeSort descending,
    ⟨hranked.perm.trans hperm, hranked.descending⟩, ?_⟩
  refine pair_sublist_mergeSort descending_trans descending_total (decide_eq_true hle) ?_
  exact (singleton_sublist.mpr hrest).cons_cons a

theorem bestFirst_iff_advantage (myOrderId : Uint256) (mine : Order) (now : Int64)
    (orders : Orders) :
    (∀ out, Ranked (candidates myOrderId mine now orders) out → BestFirst mine out) ↔
      ∀ id o id' o', Crosses myOrderId mine now orders id o →
        Crosses myOrderId mine now orders id' o' → Beats mine o'.rate o.rate →
        advantage mine o < advantage mine o' ∧ advantage mine o < maxAdvantage := by
  constructor
  · intro hbest id o id' o' hcross hcross' hbeats
    obtain ⟨a, ha, harate, hakey⟩ := exists_candidate hcross
    obtain ⟨c, hc, hcrate, hckey⟩ := exists_candidate hcross'
    rw [← harate, ← hcrate] at hbeats
    have hne : a ≠ c := by
      rintro rfl
      obtain ⟨-, hlt⟩ | ⟨-, hlt⟩ := hbeats <;> exact lt_irrefl _ hlt
    by_contra hsmall
    have hle : c.priceAdvantageMilli ≤ a.priceAdvantageMilli := by
      rw [Int64.le_iff_toInt_le, hakey, hckey]
      omega
    obtain ⟨out, hranked, hsub⟩ := exists_ranked ha hc hne hle
    have hpair := (hbest out hranked).sublist hsub
    exact (pairwise_pair.mp hpair) hbeats
  · intro hcond out hranked
    refine hranked.descending.imp_of_mem fun {a c} ha hc hle hbeats => ?_
    obtain ⟨id, o, hcross, harate, hakey⟩ := crosses_of_mem (hranked.perm.mem_iff.mp ha)
    obtain ⟨id', o', hcross', hcrate, hckey⟩ := crosses_of_mem (hranked.perm.mem_iff.mp hc)
    rw [harate, hcrate] at hbeats
    have hkeys := hcond id o id' o' hcross hcross' hbeats
    rw [Int64.le_iff_toInt_le, hakey, hckey] at hle
    omega

def Order.size (o : Order) : ℚ := o.payload.maxPricAmountSat.toInt

/-- How far the rate of an order is from that of the caller's order. -/
def Order.gap (mine o : Order) : ℚ := |mine.rate - o.rate|

theorem Listed.size_pos (h : Listed o) : 0 < o.size :=
  Int.cast_pos.mpr (Int64.lt_iff_toInt_lt.mp h.1)

theorem cross_eq_gap {a b : Order} (ha : Listed a) (hb : Listed b) :
    |(a.payload.foreignAmountAtMaxSat.toInt : ℚ) * b.payload.maxPricAmountSat.toInt -
        b.payload.foreignAmountAtMaxSat.toInt * a.payload.maxPricAmountSat.toInt| =
      a.size * b.size * a.gap b := by
  have ha' := ha.size_pos
  have hb' := hb.size_pos
  rw [Order.gap, ← abs_of_pos (mul_pos ha' hb'), ← abs_mul]
  congr 1
  unfold Order.size at ha' hb' ⊢
  unfold Order.rate OrderBook.rate
  field_simp

/-- The sort key grows with the size of the candidate as well as with its rate. -/
theorem advantage_eq (hmine : Listed mine) (ho : Listed o)
    (hside : mine.payload.side = buyPric ∨ mine.payload.side = sellPric) :
    (advantage mine o : ℚ) = mine.size * o.size * mine.gap o := by
  rw [advantage, Nat.cast_natAbs, Int.cast_abs]
  push_cast
  rcases hside with hbuy | hsell
  · have hother : mine.payload.side ≠ sellPric := by
      rw [hbuy]
      decide
    rw [bidOf, askOf, if_pos hbuy, if_neg hother, cross_eq_gap hmine ho]
  · have hother : mine.payload.side ≠ buyPric := by
      rw [hsell]
      decide
    rw [bidOf, askOf, if_neg hother, if_pos hsell, cross_eq_gap ho hmine, mul_comm o.size,
      Order.gap, abs_sub_comm]
    rfl

/-- The candidates come best price first, however the sort leaves ties, exactly when a better rate
is never outweighed by a smaller size, and the product for the worse of two candidates is below
where the keys are cut off. -/
theorem best_price_first_iff {mine : Order} (hmine : Listed mine) {orders : Orders}
    (horders : AllListed orders) (myOrderId : Uint256) (now : Int64) :
    (∀ out, Ranked (candidates myOrderId mine now orders) out → BestFirst mine out) ↔
      ∀ id o id' o', Crosses myOrderId mine now orders id o →
        Crosses myOrderId mine now orders id' o' → Beats mine o'.rate o.rate →
        o.size * mine.gap o < o'.size * mine.gap o' ∧
          mine.size * o.size * mine.gap o < 2 ^ 63 - 1 := by
  rw [bestFirst_iff_advantage]
  refine forall₄_congr fun id o id' o' => forall₃_congr fun hcross hcross' hbeats => ?_
  have hside : mine.payload.side = buyPric ∨ mine.payload.side = sellPric :=
    hbeats.imp And.left And.left
  have hkey := advantage_eq hmine (horders id o hcross.1) hside
  have hkey' := advantage_eq hmine (horders id' o' hcross'.1) hside
  have hmax : (maxAdvantage : ℚ) = 2 ^ 63 - 1 := by
    rw [maxAdvantage]
    norm_num
  rw [← Nat.cast_lt (α := ℚ), ← Nat.cast_lt (α := ℚ), hkey, hkey', hmax, mul_assoc, mul_assoc,
    mul_lt_mul_iff_of_pos_left hmine.size_pos]

/-- The caller buys ten for a hundred. Another sells one for one, and a third sells ten for
fifty. -/
def rankedBook : Orders :=
  ((∅ : Orders).insert (sampleId 2) (pricedOrder sellPric 1 1)).insert (sampleId 3)
    (pricedOrder sellPric 10 50)

def cheapest : MatchCandidate := ⟨sampleId 2, 1, 1, 1, 90⟩

def largest : MatchCandidate := ⟨sampleId 3, 10, 50, 10, 500⟩

/-- The larger offer comes first, at five times the price. -/
theorem largest_before_cheapest :
    Ranked (candidates (sampleId 1) (pricedOrder buyPric 10 100) 0 rankedBook)
        [largest, cheapest] ∧
      ¬ BestFirst (pricedOrder buyPric 10 100) [largest, cheapest] := by
  have hfound : candidates (sampleId 1) (pricedOrder buyPric 10 100) 0 rankedBook =
      [cheapest, largest] := rfl
  refine ⟨⟨hfound ▸ List.Perm.swap _ _ _, pairwise_pair.mpr (by decide)⟩, fun hbest => ?_⟩
  refine pairwise_pair.mp hbest (.inl ⟨rfl, ?_⟩)
  change ((1 : ℤ) : ℚ) / (1 : ℤ) < ((50 : ℤ) : ℚ) / (10 : ℤ)
  norm_num

/-- The caller buys ten for a hundred. Two others sell ten each, for eighty and for fifty. -/
def evenBook : Orders :=
  ((∅ : Orders).insert (sampleId 2) (pricedOrder sellPric 10 80)).insert (sampleId 3)
    (pricedOrder sellPric 10 50)

theorem mem_evenBook (h : evenBook[id]? = some o) :
    o = pricedOrder sellPric 10 80 ∨ o = pricedOrder sellPric 10 50 := by
  simp only [evenBook, getElem?_insert_id, ExtTreeMap.getElem?_empty] at h
  split at h
  · exact .inr (some.inj h).symm
  · split at h
    · exact .inl (some.inj h).symm
    · contradiction

/-- Candidates of one size come best price first. -/
theorem best_price_first_iff_even :
    BestFirst (pricedOrder buyPric 10 100)
      ((candidates (sampleId 1) (pricedOrder buyPric 10 100) 0 evenBook).mergeSort
        descending) := by
  have hlisted : AllListed evenBook := by
    intro id o ho
    rcases mem_evenBook ho with rfl | rfl <;> decide
  refine (best_price_first_iff (by decide) hlisted _ _).mpr (fun id o id' o' hcross hcross' h => ?_)
    _ (ranked_mergeSort _)
  have hmine : (pricedOrder buyPric 10 100).rate = 10 := by
    change ((100 : ℤ) : ℚ) / (10 : ℤ) = 10
    norm_num
  have hcheap : (pricedOrder sellPric 10 50).rate = 5 := by
    change ((50 : ℤ) : ℚ) / (10 : ℤ) = 5
    norm_num
  have hdear : (pricedOrder sellPric 10 80).rate = 8 := by
    change ((80 : ℤ) : ℚ) / (10 : ℤ) = 8
    norm_num
  have hsize : ∀ side foreign, (pricedOrder side 10 foreign).size = 10 := fun _ _ => rfl
  have hlt : o'.rate < o.rate :=
    h.elim And.right fun hsell => absurd hsell.1 (by decide)
  rcases mem_evenBook hcross.1 with rfl | rfl <;> rcases mem_evenBook hcross'.1 with rfl | rfl
  · exact absurd hlt (lt_irrefl _)
  · rw [Order.gap, Order.gap, hmine, hcheap, hdear, hsize, hsize, hsize]
    norm_num
  · rw [hcheap, hdear] at hlt
    norm_num at hlt
  · exact absurd hlt (lt_irrefl _)

end Ranking

end Pricoin.OrderBook
