import Pricoin.OrderEffects

/-!
Matched orders come in pairs. Each side of a pair names the other and reserves the same
amount, which is at most what is left of either order. The calls keep this, apart from
those that change one side of a pair alone: an update that cuts into the reserved amount
and a fill from a linked swap of an order that is still matched.
-/
namespace Pricoin.OrderBook

open ByteStreams KeyImageFile Std Option
open DurableRecords (Sealing plainSealing)
open Runs

variable {even : Prop} {lib : OfferLibrary} {orders : Orders} {id : Uint256} {o a b : Order}
  {payload : OfferPayload} {changed : List Order}

section Pairs

def Bounded (o : Order) : Prop :=
  0 ≤ o.pricInFlightSat ∧ o.pricInFlightSat ≤ o.pricRemainingSat ∧
    o.pricRemainingSat ≤ o.payload.maxPricAmountSat

def Unreserved (o : Order) : Prop :=
  o.status ≠ .matched ∧ o.pricInFlightSat = 0 ∧ o.matchedWithOrderId = nullId

/-- The order names another one that names it. Where the amounts are to be `even`, it is for the
same amount. -/
def Paired (even : Prop) (orders : Orders) (id : Uint256) (o : Order) : Prop :=
  o.status = .matched ∧ 0 < o.pricInFlightSat ∧ o.matchedWithOrderId ≠ id ∧
    ∃ p : Order, orders[o.matchedWithOrderId]? = some p ∧ p.status = .matched ∧
      p.matchedWithOrderId = id ∧ (even → p.pricInFlightSat = o.pricInFlightSat)

structure Sound (even : Prop) (orders : Orders) : Prop where
  keyed : ∀ (id : Uint256) (o : Order), orders[id]? = some o → o.payload.orderId = id
  nonnull : orders[nullId]? = none
  bounded : ∀ (id : Uint256) (o : Order), orders[id]? = some o → Bounded o
  reserved : ∀ (id : Uint256) (o : Order), orders[id]? = some o →
    Unreserved o ∨ Paired even orders id o

theorem sound_empty : Sound even ∅ where
  keyed _ _ h := by simp at h
  nonnull := by simp
  bounded _ _ h := by simp at h
  reserved _ _ h := by simp at h

theorem getElem?_insert_id {β : Type} (m : ExtTreeMap Uint256 β compareBytes) (k a : Uint256)
    (v : β) : (m.insert k v)[a]? = if k = a then some v else m[a]? := by
  rw [ExtTreeMap.getElem?_insert]
  simp only [LawfulEqCmp.compare_eq_iff_eq]

theorem Sound.paired_of_matched (h : Sound even orders) (ho : orders[id]? = some o)
    (hstatus : o.status = .matched) : Paired even orders id o :=
  (h.reserved id o ho).resolve_left fun hfree => hfree.1 hstatus

theorem Sound.id_ne_null (h : Sound even orders) (ho : orders[id]? = some o) : id ≠ nullId := by
  rintro rfl
  simp [h.nonnull] at ho

theorem Sound.matchedWith_ne_null (h : Sound even orders) (ho : Paired even orders id o) :
    o.matchedWithOrderId ≠ nullId := by
  obtain ⟨-, -, -, p, hp, -⟩ := ho
  exact h.id_ne_null hp

/-- An order that is in no pair may be put where none in a pair was. -/
theorem Sound.insert_unreserved (h : Sound even orders) (hid : o.payload.orderId ≠ nullId)
    (hold : ∀ prior, orders[o.payload.orderId]? = some prior → prior.status ≠ .matched)
    (hbounded : Bounded o) (hfree : Unreserved o) :
    Sound even (orders.insert o.payload.orderId o) where
  keyed id o' ho' := by
    rw [getElem?_insert_id] at ho'
    split at ho'
    · next heq => exact some.inj ho' ▸ heq
    · exact h.keyed id o' ho'
  nonnull := by rw [getElem?_insert_id, if_neg hid, h.nonnull]
  bounded id o' ho' := by
    rw [getElem?_insert_id] at ho'
    split at ho'
    · exact some.inj ho' ▸ hbounded
    · exact h.bounded id o' ho'
  reserved id o' ho' := by
    rw [getElem?_insert_id] at ho'
    split at ho'
    · exact .inl (some.inj ho' ▸ hfree)
    · refine (h.reserved id o' ho').imp_right ?_
      rintro ⟨hstatus, hpos, hother, p, hp, hpeer⟩
      refine ⟨hstatus, hpos, hother, p, ?_, hpeer⟩
      have hne : o.payload.orderId ≠ o'.matchedWithOrderId :=
        fun heq => hold p (heq ▸ hp) hpeer.1
      rw [getElem?_insert_id, if_neg hne, hp]

theorem Sound.replace_unreserved (h : Sound even orders) {o' : Order}
    (ho : orders[o'.payload.orderId]? = some o) (hstatus : o.status ≠ .matched)
    (hbounded : Bounded o') (hfree : Unreserved o') :
    Sound even (orders.insert o'.payload.orderId o') :=
  h.insert_unreserved (h.id_ne_null ho)
    (fun _ hprior => some.inj (ho.symm.trans hprior) ▸ hstatus) hbounded hfree

/-- An order may be replaced by one that is in the same pair or, as the order was, in none. -/
theorem Sound.insert_same {orders : Orders} (h : Sound even orders) {o o' : Order}
    (ho : orders[o'.payload.orderId]? = some o) (hbounded : Bounded o')
    (hfree : Unreserved o → Unreserved o') (hstatus : o'.status = o.status)
    (hwith : o'.matchedWithOrderId = o.matchedWithOrderId)
    (hflight : 0 < o.pricInFlightSat → 0 < o'.pricInFlightSat ∧
      (even → o'.pricInFlightSat = o.pricInFlightSat)) :
    Sound even (orders.insert o'.payload.orderId o') := by
  -- the other side of a pair is found again, as it was or replaced
  have hpaired : ∀ (id : Uint256) (p : Order), Paired even orders id p →
      Paired even (orders.insert o'.payload.orderId o') id p := by
    rintro id p ⟨hmatched, hpos, hother, q, hq, hqstatus, hqwith, hqflight⟩
    by_cases heq : o'.payload.orderId = p.matchedWithOrderId
    · rw [← heq, ho] at hq
      obtain rfl := some.inj hq
      have hqpos := ((h.paired_of_matched ho hqstatus).2.1)
      refine ⟨hmatched, hpos, hother, o', ?_, hstatus.trans hqstatus, hwith.trans hqwith,
        fun heven => ((hflight hqpos).2 heven).trans (hqflight heven)⟩
      rw [getElem?_insert_id, if_pos heq]
    · refine ⟨hmatched, hpos, hother, q, ?_, hqstatus, hqwith, hqflight⟩
      rw [getElem?_insert_id, if_neg heq, hq]
  refine ⟨?_, ?_, ?_, ?_⟩
  · intro id p hp
    rw [getElem?_insert_id] at hp
    split at hp
    · next heq => exact some.inj hp ▸ heq
    · exact h.keyed id p hp
  · rw [getElem?_insert_id, if_neg (h.id_ne_null ho), h.nonnull]
  · intro id p hp
    rw [getElem?_insert_id] at hp
    split at hp
    · exact some.inj hp ▸ hbounded
    · exact h.bounded id p hp
  · intro id p hp
    rw [getElem?_insert_id] at hp
    split at hp
    · next heq =>
      obtain rfl := some.inj hp
      subst heq
      refine (h.reserved _ o ho).imp hfree fun hold => ?_
      obtain ⟨hmatched, hpos, hother, q, hq, hqstatus, hqwith, hqflight⟩ := hpaired _ o hold
      obtain ⟨hpos', heven'⟩ := hflight hpos
      refine ⟨hstatus.trans hmatched, hpos', hwith ▸ hother, q, hwith ▸ hq, hqstatus, hqwith,
        fun heven => (hqflight heven).trans (heven' heven).symm⟩
    · exact (h.reserved id p hp).imp_right (hpaired id p)

/-- The two orders are in no pair, or a pair. -/
def Together (even : Prop) (a b : Order) : Prop :=
  (Unreserved a ∧ Unreserved b) ∨
    (a.status = .matched ∧ b.status = .matched ∧ 0 < a.pricInFlightSat ∧
      0 < b.pricInFlightSat ∧ (even → a.pricInFlightSat = b.pricInFlightSat) ∧
      a.matchedWithOrderId = b.payload.orderId ∧ b.matchedWithOrderId = a.payload.orderId)

theorem Together.symm (h : Together even a b) : Together even b a := by
  rcases h with ⟨ha, hb⟩ | ⟨ha, hb, hposa, hposb, heq, hab, hba⟩
  · exact .inl ⟨hb, ha⟩
  · exact .inr ⟨hb, ha, hposb, hposa, fun heven => (heq heven).symm, hba, hab⟩

/-- No other order names one of two that are together. -/
theorem Together.matchedWith_ne (htogether : Together even a b)
    (ha : orders[a.payload.orderId]? = some a) (hne : id ≠ b.payload.orderId)
    (hpaired : Paired even orders id o) : o.matchedWithOrderId ≠ a.payload.orderId := by
  intro heq
  obtain ⟨-, -, -, p, hp, hstatus, hwith, -⟩ := hpaired
  rw [heq, ha] at hp
  obtain rfl := some.inj hp
  rcases htogether with ⟨hfree, -⟩ | ⟨-, -, -, -, -, hab, -⟩
  · exact hfree.1 hstatus
  · exact hne (hwith.symm.trans hab)

/-- Two orders that are together may be replaced by two that are. -/
theorem Sound.insert_pair (h : Sound even orders) {a' b' : Order}
    (ha : orders[a'.payload.orderId]? = some a) (hb : orders[b'.payload.orderId]? = some b)
    (hne : a'.payload.orderId ≠ b'.payload.orderId) (hold : Together even a b)
    (hnew : Together even a' b') (hbounda : Bounded a') (hboundb : Bounded b') :
    Sound even ((orders.insert a'.payload.orderId a').insert b'.payload.orderId b') := by
  have hida := h.keyed _ a ha
  have hidb := h.keyed _ b hb
  have hget : ∀ id, ((orders.insert a'.payload.orderId a').insert b'.payload.orderId b')[id]? =
      if b'.payload.orderId = id then some b'
      else if a'.payload.orderId = id then some a' else orders[id]? := by
    intro id
    rw [getElem?_insert_id, getElem?_insert_id]
  refine ⟨?_, ?_, ?_, ?_⟩
  · intro id o ho
    rw [hget] at ho
    split at ho
    · next heq => exact some.inj ho ▸ heq
    · split at ho
      · next heq => exact some.inj ho ▸ heq
      · exact h.keyed id o ho
  · rw [hget, if_neg (h.id_ne_null hb), if_neg (h.id_ne_null ha), h.nonnull]
  · intro id o ho
    rw [hget] at ho
    split at ho
    · exact some.inj ho ▸ hboundb
    · split at ho
      · exact some.inj ho ▸ hbounda
      · exact h.bounded id o ho
  · intro id o ho
    rw [hget] at ho
    split at ho
    · next heq =>
      obtain rfl := some.inj ho
      subst heq
      rcases hnew with ⟨-, hfree⟩ | ⟨hsa, hsb, -, hpos, heq, hab, hba⟩
      · exact .inl hfree
      · refine .inr ⟨hsb, hpos, hba ▸ hne, a', ?_, hsa, hab, heq⟩
        rw [hget, hba, if_neg hne.symm, if_pos rfl]
    · next hnotb =>
      split at ho
      · next heq =>
        obtain rfl := some.inj ho
        subst heq
        rcases hnew with ⟨hfree, -⟩ | ⟨hsa, hsb, hpos, -, heq, hab, hba⟩
        · exact .inl hfree
        · refine .inr ⟨hsa, hpos, hab ▸ hne.symm, b', ?_, hsb, hba, fun heven => (heq heven).symm⟩
          rw [hget, hab, if_pos rfl]
      · next hnota =>
        refine (h.reserved id o ho).imp_right fun hpaired => ?_
        have hwitha : o.matchedWithOrderId ≠ a.payload.orderId :=
          hold.matchedWith_ne (hida ▸ ha) (fun heq => hnotb (hidb ▸ heq.symm)) hpaired
        have hwithb : o.matchedWithOrderId ≠ b.payload.orderId :=
          hold.symm.matchedWith_ne (hidb ▸ hb) (fun heq => hnota (hida ▸ heq.symm)) hpaired
        obtain ⟨hstatus, hpos, hother, p, hp, hpeer⟩ := hpaired
        refine ⟨hstatus, hpos, hother, p, ?_, hpeer⟩
        rw [hidb] at hwithb
        rw [hida] at hwitha
        rw [hget, if_neg hwithb.symm, if_neg hwitha.symm, hp]

/-- The order that a matched one names is its peer, and they are together. -/
theorem Sound.peer (h : Sound even orders) (ho : orders[id]? = some o)
    (hstatus : o.status = .matched) :
    ∃ p, peerOf orders o = some p ∧ orders[p.payload.orderId]? = some p ∧
      p.payload.orderId ≠ id ∧ Together even o p := by
  have hpaired := h.paired_of_matched ho hstatus
  have hnull := h.matchedWith_ne_null hpaired
  obtain ⟨-, hpos, hother, p, hp, hps, hpw, hpf⟩ := hpaired
  have hpid := h.keyed _ p hp
  refine ⟨p, by rw [peerOf, if_neg hnull, hp], hpid ▸ hp, hpid ▸ hother, ?_⟩
  exact .inr ⟨hstatus, hps, hpos, (h.paired_of_matched hp hps).2.1,
    fun heven => (hpf heven).symm, hpid.symm, hpw.trans (h.keyed _ o ho).symm⟩

/-- A sweep takes orders out of no pair. -/
theorem Sound.sweep (h : Sound even orders) (now : Int64) :
    Sound even (orders.map fun _ o => expire now o) := by
  have hget : ∀ id : Uint256, (orders.map fun _ o => expire now o)[id]? =
      (orders[id]?).map (expire now) := fun id => ExtTreeMap.getElem?_map
  have hkept : ∀ o : Order, o.status = .matched → expire now o = o := by
    intro o ho
    refine if_neg fun hexp => ?_
    simp [hexp.1] at ho
  have hfields : ∀ o : Order, (expire now o).payload = o.payload ∧
      (expire now o).pricInFlightSat = o.pricInFlightSat ∧
      (expire now o).pricRemainingSat = o.pricRemainingSat ∧
      (expire now o).matchedWithOrderId = o.matchedWithOrderId := by
    intro o
    unfold expire
    split <;> exact ⟨rfl, rfl, rfl, rfl⟩
  have hfree : ∀ o : Order, Unreserved o → Unreserved (expire now o) := by
    rintro o ⟨hstatus, hflight, hwith⟩
    refine ⟨?_, (hfields o).2.1.trans hflight, (hfields o).2.2.2.trans hwith⟩
    unfold expire
    split
    · exact nofun
    · exact hstatus
  refine ⟨?_, ?_, ?_, ?_⟩
  · intro id o' ho'
    obtain ⟨o, ho, rfl⟩ := map_eq_some_iff.mp ((hget id).symm.trans ho')
    rw [(hfields o).1]
    exact h.keyed id o ho
  · rw [hget, h.nonnull, map_none]
  · intro id o' ho'
    obtain ⟨o, ho, rfl⟩ := map_eq_some_iff.mp ((hget id).symm.trans ho')
    obtain ⟨hpayload, hflight, hremaining, -⟩ := hfields o
    unfold Bounded
    rw [hpayload, hflight, hremaining]
    exact h.bounded id o ho
  · intro id o' ho'
    obtain ⟨o, ho, rfl⟩ := map_eq_some_iff.mp ((hget id).symm.trans ho')
    refine (h.reserved id o ho).imp (hfree o) ?_
    rintro ⟨hstatus, hpos, hother, p, hp, hpeer⟩
    rw [hkept o hstatus]
    refine ⟨hstatus, hpos, hother, p, ?_, hpeer⟩
    rw [hget, hp, map_some, hkept p hpeer.1]

end Pairs

section Changes

variable {now : Int64} {orders : Orders}

theorem zero_le_sub {a b : Int64} (hb : 0 ≤ b) (hab : b ≤ a) : 0 ≤ a - b ∧ a - b ≤ a := by
  have hsub := Int64.toInt_sub_of_le a b hb hab
  rw [Int64.le_iff_toInt_le] at hb hab
  rw [Int64.le_iff_toInt_le, Int64.le_iff_toInt_le, hsub]
  have hzero : (0 : Int64).toInt = 0 := rfl
  omega

theorem unreserved_consume (amount : Int64) (o : Order) : Unreserved (consume amount o) := by
  refine ⟨?_, rfl, rfl⟩
  unfold consume
  dsimp only
  split <;> exact nofun

theorem Bounded.consume (h : Bounded o) {amount : Int64} (hpos : 0 ≤ amount)
    (hle : amount ≤ o.pricRemainingSat) : Bounded (consume amount o) := by
  obtain ⟨hzero, hsub⟩ := zero_le_sub hpos hle
  exact ⟨Int64.le_refl 0, hzero, Int64.le_trans hsub h.2.2⟩

theorem Bounded.release (h : Bounded o) (status : Status) : Bounded (release status now o) :=
  ⟨Int64.le_refl 0, Int64.le_trans h.1 h.2.1, h.2.2⟩

theorem Bounded.newOrder (hpos : 0 < payload.maxPricAmountSat) (origin : Origin)
    (notes : List UInt8) : Bounded (newOrder payload origin notes now) :=
  ⟨Int64.le_refl 0, Int64.le_of_lt hpos, Int64.le_refl _⟩

theorem Bounded.shrink (h : Bounded o) (hpos : 0 < payload.maxPricAmountSat) :
    Bounded (shrink payload now o) := by
  obtain ⟨hzero, hle, -⟩ := h
  have hremaining : 0 ≤ (OrderBook.shrink payload now o).pricRemainingSat ∧
      (OrderBook.shrink payload now o).pricRemainingSat ≤ payload.maxPricAmountSat := by
    unfold OrderBook.shrink
    dsimp only
    split
    · exact ⟨Int64.le_of_lt hpos, Int64.le_refl _⟩
    · next hfits => exact ⟨Int64.le_trans hzero hle, Int64.not_lt.mp hfits⟩
  have hflight : (OrderBook.shrink payload now o).pricInFlightSat =
      if (OrderBook.shrink payload now o).pricRemainingSat < o.pricInFlightSat then
        (OrderBook.shrink payload now o).pricRemainingSat
      else o.pricInFlightSat := rfl
  refine ⟨?_, ?_, hremaining.2⟩
  · rw [hflight]
    split
    · exact hremaining.1
    · exact hzero
  · rw [hflight]
    split
    · exact Int64.le_refl _
    · next hfits => exact Int64.not_lt.mp hfits

theorem pricInFlightSat_shrink (h : Bounded o)
    (hmax : o.pricInFlightSat ≤ payload.maxPricAmountSat) :
    (shrink payload now o).pricInFlightSat = o.pricInFlightSat := by
  refine if_neg (Int64.not_lt.mpr ?_)
  split
  · exact hmax
  · exact h.2.1

theorem pricInFlightSat_shrink_pos (h : Bounded o) (hmax : 0 < payload.maxPricAmountSat)
    (hpos : 0 < o.pricInFlightSat) : 0 < (shrink payload now o).pricInFlightSat := by
  unfold shrink
  dsimp only
  have hremaining : 0 < o.pricRemainingSat := Int64.lt_of_lt_of_le hpos h.2.1
  repeat' split
  · exact hmax
  · exact hpos
  · exact hremaining
  · exact hpos

/-- A new order has an id that is not in use, and a fill from a linked swap is not of an order
that is still matched. -/
def KeepsPairs (lib : OfferLibrary) (orders : Orders) : Call → Prop
  | .create _ orderId => orderId ≠ nullId ∧ orders[orderId]? = none
  | .importOffer uri => ∀ payload, lib.decodeUri uri = some payload → payload.orderId ≠ nullId
  | .fillFromLinkedSwap orderId consumedSat => ∀ o, orders[orderId]? = some o →
      o.status = .matched → o.pricRemainingSat < consumedSat
  | _ => True

/-- A matched order is not reduced to less than is reserved. -/
def KeepsAmounts (lib : OfferLibrary) (orders : Orders) : Call → Prop
  | .applyImportedUpdate uri => ∀ payload o, lib.decodeUri uri = some payload →
      orders[payload.orderId]? = some o → o.status = .matched →
        o.pricInFlightSat ≤ payload.maxPricAmountSat
  | _ => True

theorem place_singleton (o : Order) : place orders [o] = orders.insert o.payload.orderId o := rfl

theorem place_pair (a b : Order) : place orders [a, b] =
    (orders.insert a.payload.orderId a).insert b.payload.orderId b := rfl

theorem Sound.update (h : Sound even orders) {payload : OfferPayload} {changed : List Order}
    (hpos : 0 < payload.maxPricAmountSat)
    (hamounts : even → ∀ o, orders[payload.orderId]? = some o → o.status = .matched →
      o.pricInFlightSat ≤ payload.maxPricAmountSat)
    (hplan : planUpdate payload now orders = .ok changed) : Sound even (place orders changed) := by
  unfold planUpdate at hplan
  cases ho : orders[payload.orderId]? with
  | none => simp [ho] at hplan
  | some o =>
    simp only [ho] at hplan
    repeat' split at hplan
    all_goals cases hplan
    · exact h
    · have hbounded := h.bounded _ o ho
      rw [place_singleton]
      refine h.insert_same ho (hbounded.shrink hpos) ?_ rfl rfl ?_
      · rintro ⟨hstatus, hflight, hwith⟩
        refine ⟨hstatus, ?_, hwith⟩
        rw [pricInFlightSat_shrink hbounded (hflight ▸ Int64.le_of_lt hpos), hflight]
      · intro hreserved
        refine ⟨pricInFlightSat_shrink_pos hbounded hpos hreserved, fun heven => ?_⟩
        have hmatched : o.status = .matched := by
          rcases h.reserved _ o ho with hfree | hpaired
          · exact absurd hreserved (hfree.2.1 ▸ Int64.lt_irrefl)
          · exact hpaired.1
        exact pricInFlightSat_shrink hbounded (hamounts heven o ho hmatched)

theorem Together.matched (h : Together even a b) (ha : a.status = .matched) :
    b.status = .matched := by
  rcases h with ⟨hfree, -⟩ | ⟨-, hb, -⟩
  · exact absurd ha hfree.1
  · exact hb

section

variable (h : Sound even orders)
include h

theorem Sound.cancel {orderId : Uint256} (hplan : planCancel orderId now orders = .ok changed) :
    Sound even (place orders changed) := by
  unfold planCancel at hplan
  cases ho : orders[orderId]? with
  | none => simp [ho] at hplan
  | some o =>
    simp only [ho] at hplan
    split at hplan
    · cases hplan
    · obtain rfl : o.payload.orderId = orderId := h.keyed _ o ho
      have hbounded : Bounded (release .cancelled now o) := (h.bounded _ o ho).release .cancelled
      have hfree : Unreserved (release .cancelled now o) := ⟨nofun, rfl, rfl⟩
      by_cases hmatched : o.status = .matched
      · obtain ⟨p, hpeer, hp, hne, htogether⟩ := h.peer ho hmatched
        rw [if_pos hmatched, hpeer] at hplan
        cases hplan
        rw [map_some, if_pos (htogether.matched hmatched), toList_some, place_pair]
        exact h.insert_pair ho hp hne.symm htogether (.inl ⟨hfree, nofun, rfl, rfl⟩)
          hbounded ((h.bounded _ p hp).release .active)
      · rw [if_neg hmatched] at hplan
        cases hplan
        exact h.replace_unreserved ho hmatched hbounded hfree

/-- What a plan for a matched pair is in a sound book. -/
theorem Sound.pair_of_plan {orderId : Uint256}
    {apply : Order → Option Order → Except MutateResult (Order × Option Order)}
    (hplan : planMatchedPair orderId now apply orders = .ok changed) :
    ∃ o p, orders[o.payload.orderId]? = some o ∧ orders[p.payload.orderId]? = some p ∧
      o.payload.orderId ≠ p.payload.orderId ∧ o.status = .matched ∧ Together even o p ∧
      ∃ target peer, apply o (some p) = .ok (target, peer) ∧
        changed = touch now target :: (peer.map (touch now)).toList := by
  unfold planMatchedPair at hplan
  cases ho : orders[orderId]? with
  | none => simp [ho] at hplan
  | some o =>
    simp only [ho] at hplan
    by_cases hmatched : o.status = .matched
    · rw [if_neg (not_not.mpr hmatched)] at hplan
      obtain rfl : o.payload.orderId = orderId := h.keyed _ o ho
      obtain ⟨p, hpeer, hp, hne, htogether⟩ := h.peer ho hmatched
      rw [hpeer] at hplan
      refine ⟨o, p, ho, hp, hne.symm, hmatched, htogether, ?_⟩
      cases happly : apply o (some p) with
      | error r => simp [happly] at hplan
      | ok pair =>
        rw [happly] at hplan
        cases hplan
        exact ⟨pair.1, pair.2, rfl, rfl⟩
    · simp [hmatched] at hplan

theorem Sound.fill {orderId : Uint256}
    (hplan : planMatchedPair orderId now applyFill orders = .ok changed) :
    Sound even (place orders changed) := by
  obtain ⟨o, p, ho, hp, hne, hmatched, htogether, target, peer, happly, rfl⟩ :=
    h.pair_of_plan hplan
  have ho' := h.bounded _ o ho
  have hp' := h.bounded _ p hp
  simp only [applyFill, htogether.matched hmatched, if_true] at happly
  by_cases hflight : p.pricInFlightSat = o.pricInFlightSat
  · simp only [hflight, ne_eq, not_true_eq_false, if_false] at happly
    repeat' split at happly
    all_goals cases happly
    rw [map_some, toList_some, place_pair]
    exact h.insert_pair ho hp hne htogether
      (.inl ⟨unreserved_consume _ o, unreserved_consume _ p⟩)
      (ho'.consume ho'.1 ho'.2.1) (hp'.consume ho'.1 (hflight ▸ hp'.2.1))
  · simp only [ne_eq, hflight, not_false_eq_true, if_true] at happly
    repeat' split at happly
    all_goals cases happly

theorem Sound.unmatch {orderId : Uint256}
    (hplan : planMatchedPair orderId now (applyUnmatch now) orders = .ok changed) :
    Sound even (place orders changed) := by
  obtain ⟨o, p, ho, hp, hne, hmatched, htogether, target, peer, happly, rfl⟩ :=
    h.pair_of_plan hplan
  rw [applyUnmatch, map_some, if_pos (htogether.matched hmatched)] at happly
  cases happly
  rw [map_some, toList_some, place_pair]
  exact h.insert_pair ho hp hne htogether (.inl ⟨⟨nofun, rfl, rfl⟩, nofun, rfl, rfl⟩)
    ((h.bounded _ o ho).release .active) ((h.bounded _ p hp).release .active)

theorem Sound.match {myOrderId theirOrderId : Uint256} {amount : Int64}
    (hne : myOrderId ≠ theirOrderId)
    (hplan : planMatch myOrderId theirOrderId amount now orders = .ok changed) :
    Sound even (place orders changed) := by
  unfold planMatch at hplan
  cases hm : orders[myOrderId]? with
  | none => simp [hm] at hplan
  | some mine =>
    cases ht : orders[theirOrderId]? with
    | none => simp [hm, ht] at hplan
    | some theirs =>
      simp only [hm, ht] at hplan
      cases hmatch : evaluateMatch mine theirs amount now with
      | none => simp [hmatch] at hplan
      | some proposal =>
        rw [hmatch] at hplan
        cases hplan
        obtain ⟨hmine, htheirs, hpos, hlem, hlet⟩ := evaluateMatch_some hmatch
        obtain rfl : mine.payload.orderId = myOrderId := h.keyed _ mine hm
        obtain rfl : theirs.payload.orderId = theirOrderId := h.keyed _ theirs ht
        have hfree : ∀ (id : Uint256) (o : Order), orders[id]? = some o → o.status = .active →
            Unreserved o := by
          intro id o ho hactive
          refine (h.reserved id o ho).resolve_right fun hpaired => ?_
          have hmatched := hpaired.1
          simp [hactive] at hmatched
        rw [place_pair]
        refine h.insert_pair hm ht hne (.inl ⟨hfree _ _ hm hmine, hfree _ _ ht htheirs⟩)
          (.inr ⟨rfl, rfl, hpos, hpos, fun _ => rfl, rfl, rfl⟩) ?_ ?_
        · exact ⟨Int64.le_of_lt hpos, hlem, (h.bounded _ _ hm).2.2⟩
        · exact ⟨Int64.le_of_lt hpos, hlet, (h.bounded _ _ ht).2.2⟩

theorem Sound.link {orderId swapId : Uint256}
    (hplan : planLink orderId swapId now orders = .ok changed) :
    Sound even (place orders changed) := by
  unfold planLink at hplan
  cases ho : orders[orderId]? with
  | none => simp [ho] at hplan
  | some o =>
    simp only [ho] at hplan
    repeat' split at hplan
    all_goals cases hplan
    · exact h
    · obtain rfl : o.payload.orderId = orderId := h.keyed _ o ho
      rw [place_singleton]
      exact h.insert_same ho (h.bounded _ o ho) id rfl rfl fun hpos => ⟨hpos, fun _ => rfl⟩

end

theorem Sound.linkedFill (h : Sound even orders) {orderId : Uint256} {consumedSat : Int64}
    {changed : List Order} (hpos : 0 < consumedSat)
    (hregular : ∀ o : Order, orders[orderId]? = some o → o.status = .matched →
      o.pricRemainingSat < consumedSat)
    (hplan : planLinkedFill orderId consumedSat now orders = .ok changed) :
    Sound even (place orders changed) := by
  unfold planLinkedFill at hplan
  cases ho : orders[orderId]? with
  | none => simp [ho] at hplan
  | some o =>
    simp only [ho] at hplan
    split at hplan
    · cases hplan
      exact h
    · split at hplan
      · cases hplan
        exact h
      · next hleft =>
        cases hplan
        obtain rfl : o.payload.orderId = orderId := h.keyed _ o ho
        rw [place_singleton]
        exact h.replace_unreserved ho (fun hmatched => hleft (hregular o ho hmatched))
          ((h.bounded _ o ho).consume (Int64.le_of_lt hpos) (Int64.not_lt.mp hleft))
          (unreserved_consume consumedSat o)

/-- What a call replaces keeps the pairs, and even amounts where they are to be kept. -/
theorem Sound.replaces (h : Sound even orders) {c : Call} (hpairs : KeepsPairs lib orders c)
    (hamounts : even → KeepsAmounts lib orders c) (hchange : Replaces lib now orders c changed) :
    Sound even (place orders changed) := by
  cases hchange with
  | create hid hpos hforeign hsigned =>
    subst hid
    rw [place_singleton]
    refine h.insert_unreserved hpairs.1 (fun prior hprior => ?_) (.newOrder hpos _ _)
      ⟨nofun, rfl, rfl⟩
    have hnone : orders[_]? = none := hpairs.2
    simp [newOrder, hnone] at hprior
  | importOffer huri hpos hforeign hnew =>
    rw [place_singleton]
    refine h.insert_unreserved (hpairs _ huri) (fun prior hprior => ?_) (.newOrder hpos _ _)
      ⟨nofun, rfl, rfl⟩
    simp [newOrder, hnew] at hprior
  | update huri hpos hforeign hplan =>
    exact h.update hpos (fun heven o => hamounts heven _ o huri) hplan
  | cancel hplan => exact h.cancel hplan
  | matchOrders hne hplan => exact h.match hne hplan
  | fill hplan => exact h.fill hplan
  | linkSwap hplan => exact h.link hplan
  | linkedFill hpos hplan => exact h.linkedFill hpos hpairs hplan
  | unmatch hplan => exact h.unmatch hplan

end Changes

section Runs

variable {ι : Type} {seals : Sealing ι}

theorem Sound.step {b : Book} (h : Holds (Sound True) b) (call : Conditions ι × Call)
    (hpairs : KeepsPairs lib (b.orders seals) call.2)
    (hamounts : KeepsAmounts lib (b.orders seals) call.2) :
    Holds (Sound True) (step lib seals b call) := by
  have hsound : Sound True (b.orders seals) := h.orders sound_empty
  refine Holds.step (fun _ now horders => horders.sweep now) ?_ ?_ sound_empty h
  · intro changed hchange
    exact hsound.replaces hpairs (fun _ => hamounts) hchange
  · intro orders myOrderId theirOrderId amount changed horders hchange
    have hfree : KeepsPairs lib orders (.matchOrders myOrderId theirOrderId amount) := trivial
    exact horders.replaces hfree (fun _ => trivial) hchange

/-- In every run of calls that keep the pairs and their amounts the reserved amounts are within the
orders, an order is matched exactly when it has an amount reserved and names another, and the
orders match in pairs. -/
theorem matched_in_pairs (lib : OfferLibrary) (seals : Sealing ι)
    (calls : List (Conditions ι × Call))
    (hkeeps : Always (OrderBook.step lib seals)
      (fun b call => KeepsPairs lib (b.orders seals) call.2 ∧
        KeepsAmounts lib (b.orders seals) call.2) (.fresh ∅) calls)
    {id : Uint256} {o : Order}
    (ho : (calls.foldl (OrderBook.step lib seals) (.fresh ∅)).byId[id]? = some o) :
    (0 ≤ o.pricInFlightSat ∧ o.pricInFlightSat ≤ o.pricRemainingSat ∧
        o.pricRemainingSat ≤ o.payload.maxPricAmountSat) ∧
      (o.status = .matched ↔ 0 < o.pricInFlightSat ∧ o.matchedWithOrderId ≠ nullId) ∧
      (o.status = .matched → ∃ p,
        (calls.foldl (OrderBook.step lib seals) (.fresh ∅)).byId[o.matchedWithOrderId]? = some p ∧
          p.status = .matched ∧ p.matchedWithOrderId = id ∧
          p.pricInFlightSat = o.pricInFlightSat) := by
  have hstart : Holds (Sound True) (.fresh ∅) := ⟨rfl, rfl⟩
  have hreached : Holds (Sound True) (calls.foldl (OrderBook.step lib seals) (.fresh ∅)) :=
    hkeeps.invariant (fun b call hk hb => Sound.step hb call hk.1 hk.2) hstart
  have hsound := hreached.byId sound_empty
  refine ⟨hsound.bounded id o ho, ⟨fun hmatched => ?_, fun hreserved => ?_⟩, fun hmatched => ?_⟩
  · have hpaired := hsound.paired_of_matched ho hmatched
    exact ⟨hpaired.2.1, hsound.matchedWith_ne_null hpaired⟩
  · rcases hsound.reserved id o ho with hfree | hpaired
    · exact absurd hfree.2.2 hreserved.2
    · exact hpaired.1
  · obtain ⟨-, -, -, p, hp, hstatus, hwith, hflight⟩ := hsound.paired_of_matched ho hmatched
    exact ⟨p, hp, hstatus, hwith, hflight trivial⟩

end Runs

section Samples

def calm : Conditions Unit where
  locked := false
  reads := true
  writes _ := some ()
  sweeps _ := some ()
  now := 0

def sampleId (n : UInt8) : Uint256 := .replicate 32 n

/-- An offer to buy ten thousand units, so many times. -/
def sampleOffer (n times : UInt8) : OfferPayload where
  version := 1
  orderId := sampleId n
  side := buyPric
  foreignChain := 0
  maxPricAmountSat := 10000 * .ofNat times.toNat
  foreignAmountAtMaxSat := 10000 * .ofNat times.toNat
  expiryUnixSec := 100
  makerPubkey := .replicate 33 3
  signature := [1]

def sampleOffers : OfferLibrary where
  signPayload _ := some (.replicate 33 2, [1])
  verifySignedPayload _ := true
  decodeUri
    | [n, times] => some (sampleOffer n times)
    | _ => none
  encodeUri _ := []

/-- An offer to sell is created, one to buy is imported, and they are matched. -/
def sampleMatch : List (Conditions Unit × Call) :=
  [(calm, .create ⟨sellPric, 0, 100000, 100000, 100, []⟩ (sampleId 1)),
    (calm, .importOffer [2, 10]),
    (calm, .matchOrders (sampleId 1) (sampleId 2) 50000)]

/-- The maker of the imported offer reduces it to less than is reserved. -/
def cutUpdate : Conditions Unit × Call := (calm, .applyImportedUpdate [2, 2])

/-- Two matched orders with different amounts reserved. -/
theorem pair_cut_by_update :
    ∃ a b, ((sampleMatch ++ [cutUpdate]).foldl (step sampleOffers plainSealing)
        (.fresh ∅)).byId[sampleId 1]? = some a ∧
      ((sampleMatch ++ [cutUpdate]).foldl (step sampleOffers plainSealing)
        (.fresh ∅)).byId[sampleId 2]? = some b ∧
      a.status = .matched ∧ a.matchedWithOrderId = sampleId 2 ∧
      b.status = .matched ∧ b.matchedWithOrderId = sampleId 1 ∧
      a.pricInFlightSat = 50000 ∧ b.pricInFlightSat = 20000 := by
  refine ⟨_, _, rfl, rfl, ?_⟩
  decide +kernel

theorem keeps_sampleMatch : Always (step sampleOffers plainSealing)
    (fun b call => KeepsPairs sampleOffers (b.orders plainSealing) call.2 ∧
      KeepsAmounts sampleOffers (b.orders plainSealing) call.2) (.fresh ∅) sampleMatch := by
  refine ⟨⟨⟨by decide, rfl⟩, trivial⟩, ⟨fun payload hpayload => ?_, trivial⟩,
    ⟨trivial, trivial⟩, trivial⟩
  cases hpayload
  decide

theorem matched_in_pairs_sample :
    ∃ o, (sampleMatch.foldl (step sampleOffers plainSealing) (.fresh ∅)).byId[sampleId 1]? =
        some o ∧ o.status = .matched ∧
      ∃ p, (sampleMatch.foldl (step sampleOffers plainSealing)
          (.fresh ∅)).byId[o.matchedWithOrderId]? = some p ∧ p.status = .matched ∧
        p.matchedWithOrderId = sampleId 1 ∧ p.pricInFlightSat = o.pricInFlightSat :=
  ⟨_, rfl, rfl, (matched_in_pairs sampleOffers plainSealing sampleMatch keeps_sampleMatch
    rfl).2.2 rfl⟩

end Samples

end Pricoin.OrderBook
