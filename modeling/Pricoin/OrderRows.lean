import Pricoin.MatchedPairs

/-!
The rows of the order book against the orders in memory. A call that replaces two orders
writes two rows, and when the second write fails it puts back the memory but not the first
row. A sweep marks orders as expired whether or not their rows are written. Apart from
these failures a fresh load gives the orders in memory, with both sides of each pair.
-/
namespace Pricoin.OrderBook

open ByteStreams KeyImageFile Std List Option
open DurableRecords (Sealing plainSealing)
open Runs
open Codecs (Codec maxSize)

variable {ι : Type} {seals : Sealing ι} {lib : OfferLibrary} {now : Int64} {env : Conditions ι}
  {rows : Rows} {orders : Orders} {o : Order} {changed : List Order} {id orderId : Uint256}

section Rows

/-- Any order with these notes and this signature has a row that the reader takes. -/
def Storable (seals : Sealing ι) (notes signature : List UInt8) : Prop :=
  ∀ seed (o : Order), o.notes = notes → o.payload.signature = signature →
    (sealOrder seals seed o).length ≤ maxSize

theorem loadFromDB_eq_some :
    loadFromDB seals rows = some orders ↔
      (∀ (id : Uint256) (blob : List UInt8), rows[id]? = some blob →
        blob.length ≤ maxSize ∧ (seals.decrypt blob).isSome) ∧
      ∀ id : Uint256, orders[id]? = (rows[id]?).bind (openRow seals id) := by
  have hall : (rows.toList.all fun row => row.2.length ≤ maxSize ∧ (seals.decrypt row.2).isSome) ↔
      ∀ (id : Uint256) (blob : List UInt8), rows[id]? = some blob →
        blob.length ≤ maxSize ∧ (seals.decrypt blob).isSome := by
    rw [List.all_eq_true]
    constructor
    · intro h id blob hrow
      simpa using h (id, blob) (ExtTreeMap.mem_toList_iff_getElem?_eq_some.mpr hrow)
    · rintro h ⟨id, blob⟩ hmem
      simpa using h id blob (ExtTreeMap.mem_toList_iff_getElem?_eq_some.mp hmem)
  have hget : ∀ id : Uint256, (rows.filterMap (openRow seals))[id]? =
      (rows[id]?).bind (openRow seals id) := fun id => ExtTreeMap.getElem?_filterMap'
  unfold loadFromDB
  rw [← hall]
  constructor
  · intro h
    split at h
    · next hread =>
      cases h
      exact ⟨hread, hget⟩
    · cases h
  · rintro ⟨hread, horders⟩
    rw [if_pos hread]
    exact congrArg some (ExtTreeMap.ext_getElem? fun id => (hget id).trans (horders id).symm)

theorem openRow_sealOrder {seed : ι} (hsize : (sealOrder seals seed o).length ≤ maxSize) :
    openRow seals o.payload.orderId (sealOrder seals seed o) = some o := by
  have hplain : (writeOrder o).length ≤ maxSize := (seals.length_le seed _).trans hsize
  rw [openRow, sealOrder, seals.decrypt_encrypt, bind_some, readOrder_writeOrder hplain]
  simp

/-- A row that is written is what a fresh load gives. -/
theorem loadFromDB_insert (h : loadFromDB seals rows = some orders) {seed : ι}
    (hsize : (sealOrder seals seed o).length ≤ maxSize) :
    loadFromDB seals (rows.insert o.payload.orderId (sealOrder seals seed o)) =
      some (orders.insert o.payload.orderId o) := by
  obtain ⟨hread, horders⟩ := loadFromDB_eq_some.mp h
  refine loadFromDB_eq_some.mpr ⟨?_, ?_⟩
  · intro id blob hrow
    rw [getElem?_insert_id] at hrow
    split at hrow
    · cases hrow
      refine ⟨hsize, ?_⟩
      rw [sealOrder, seals.decrypt_encrypt, isSome_some]
    · exact hread id blob hrow
  · intro id
    rw [getElem?_insert_id, getElem?_insert_id]
    split
    · next heq => rw [bind_some, ← heq, openRow_sealOrder hsize]
    · exact horders id

theorem loadFromDB_writeRows {env : Conditions ι}
    (hsize : ∀ o ∈ changed, Storable seals o.notes o.payload.signature) {n : ℕ}
    (hwrites : ∀ i < changed.length, (env.writes (n + i)).isSome)
    (h : loadFromDB seals rows = some orders) :
    (writeRows seals env n rows changed).1 = true ∧
      loadFromDB seals (writeRows seals env n rows changed).2 = some (place orders changed) := by
  induction changed generalizing n rows orders with
  | nil => exact ⟨rfl, h⟩
  | cons o changed ih =>
    obtain ⟨seed, hseed⟩ := isSome_iff_exists.mp (hwrites 0 (Nat.succ_pos _))
    rw [Nat.add_zero] at hseed
    simp only [writeRows, hseed]
    refine ih (fun o' ho' => hsize o' (mem_cons_of_mem _ ho')) (fun i hi => ?_)
      (loadFromDB_insert h (hsize o mem_cons_self seed o rfl rfl))
    rw [Nat.add_assoc, Nat.add_comm 1 i]
    exact hwrites (i + 1) (Nat.succ_lt_succ hi)

end Rows

section Changes

variable {orders : Orders}

/-- An order of the book after a change is one of the change, under its id, or was there. -/
theorem mem_of_place (h : (place orders changed)[id]? = some o) :
    (o ∈ changed ∧ o.payload.orderId = id) ∨ orders[id]? = some o := by
  induction changed generalizing orders with
  | nil => exact .inr h
  | cons first changed ih =>
    rcases ih h with ⟨hmem, hid⟩ | hprior
    · exact .inl ⟨mem_cons_of_mem _ hmem, hid⟩
    · rw [getElem?_insert_id] at hprior
      split at hprior
      · next hid => exact .inl (some.inj hprior ▸ ⟨mem_cons_self, hid⟩)
      · exact .inr hprior

/-- The offer and the notes of the order are those of one that is there. -/
def Kept (orders : Orders) (o' : Order) : Prop :=
  ∃ (id : Uint256) (o : Order), orders[id]? = some o ∧ o'.payload = o.payload ∧ o'.notes = o.notes

/-- A change of an order under the same offer. Amounts that are in bounds stay so, and no more is
left than was. -/
structure Amends (o o' : Order) : Prop where
  payload : o'.payload = o.payload
  notes : o'.notes = o.notes
  origin : o'.origin = o.origin
  amounts : Bounded o → Bounded o' ∧ o'.pricRemainingSat ≤ o.pricRemainingSat

theorem Amends.refl (o : Order) : Amends o o := ⟨rfl, rfl, rfl, fun h => ⟨h, Int64.le_refl _⟩⟩

theorem amends_touch {o' : Order} (h : Amends o o') : Amends o (touch now o') :=
  ⟨h.payload, h.notes, h.origin, h.amounts⟩

theorem amends_release (status : Status) (o : Order) : Amends o (release status now o) :=
  ⟨rfl, rfl, rfl, fun h => ⟨h.release status, Int64.le_refl _⟩⟩

theorem amends_consume {amount : Int64} (hpos : 0 < amount)
    (hle : Bounded o → amount ≤ o.pricRemainingSat) : Amends o (consume amount o) :=
  ⟨rfl, rfl, rfl, fun h => ⟨h.consume (Int64.le_of_lt hpos) (hle h),
    (zero_le_sub (Int64.le_of_lt hpos) (hle h)).2⟩⟩

/-- The order is one that is there with a change under the same offer. -/
def Amended (orders : Orders) (o' : Order) : Prop :=
  ∃ (id : Uint256) (o : Order), orders[id]? = some o ∧ Amends o o'

theorem Amended.kept {o' : Order} (h : Amended orders o') : Kept orders o' := by
  obtain ⟨id, o, ho, h⟩ := h
  exact ⟨id, o, ho, h.payload, h.notes⟩

theorem mem_of_peerOf {p : Order} (h : peerOf orders o = some p) :
    orders[o.matchedWithOrderId]? = some p := by
  unfold peerOf at h
  split at h
  · cases h
  · exact h

theorem amends_released_peer (p : Order) :
    Amends p (if p.status = .matched then release .active now p else p) := by
  split
  · exact amends_release .active p
  · exact .refl p

theorem amended_planCancel (hplan : planCancel orderId now orders = .ok changed) :
    changed.length ≤ 2 ∧ ∀ o ∈ changed, Amended orders o := by
  unfold planCancel at hplan
  cases ho : orders[orderId]? with
  | none => simp [ho] at hplan
  | some o =>
    simp only [ho] at hplan
    split at hplan
    · cases hplan
    · cases hplan
      have htarget : Amended orders (release .cancelled now o) :=
        ⟨orderId, o, ho, amends_release .cancelled o⟩
      cases hpeer : (if o.status = .matched then peerOf orders o else none) with
      | none => simpa using htarget
      | some p =>
        have hp : orders[o.matchedWithOrderId]? = some p := by
          split at hpeer
          · exact mem_of_peerOf hpeer
          · cases hpeer
        refine ⟨Nat.le_refl 2, ?_⟩
        rw [map_some, toList_some, forall_mem_cons, forall_mem_singleton]
        exact ⟨htarget, _, p, hp, amends_released_peer p⟩

theorem amended_planMatchedPair {orderId : Uint256} {changed : List Order}
    {apply : Order → Option Order → Except MutateResult (Order × Option Order)}
    (happly : ∀ o peer o' peer', apply o peer = .ok (o', peer') →
      Amends o o' ∧ ∀ p' ∈ peer', ∃ p ∈ peer, Amends p p')
    (hplan : planMatchedPair orderId now apply orders = .ok changed) :
    changed.length ≤ 2 ∧ ∀ o ∈ changed, Amended orders o := by
  unfold planMatchedPair at hplan
  cases ho : orders[orderId]? with
  | none => simp [ho] at hplan
  | some o =>
    simp only [ho] at hplan
    split at hplan
    · cases hplan
    · split at hplan
      · cases hplan
      · next o' peer' hpair =>
        cases hplan
        obtain ⟨htarget, hpeer⟩ := happly o _ o' peer' hpair
        have hamended : Amended orders (touch now o') := ⟨orderId, o, ho, amends_touch htarget⟩
        cases peer' with
        | none => simpa using hamended
        | some p' =>
          obtain ⟨p, hp, hsame⟩ := hpeer p' rfl
          refine ⟨Nat.le_refl 2, ?_⟩
          rw [map_some, toList_some, forall_mem_cons,
            forall_mem_singleton]
          exact ⟨hamended, _, p, mem_of_peerOf hp, amends_touch hsame⟩

theorem amends_applyFill (o : Order) (peer : Option Order) (o' : Order) (peer' : Option Order)
    (h : applyFill o peer = .ok (o', peer')) :
    Amends o o' ∧ ∀ p' ∈ peer', ∃ p ∈ peer, Amends p p' := by
  unfold applyFill at h
  split at h
  · cases h
  · next hflight =>
    have hpos : 0 < o.pricInFlightSat := Int64.not_le.mp hflight
    split at h
    · cases h
    · next hleft =>
      have htarget : Amends o (consume o.pricInFlightSat o) :=
        amends_consume hpos fun _ => Int64.not_lt.mp hleft
      cases peer with
      | none =>
        cases h
        exact ⟨htarget, fun p' hp' => by cases hp'⟩
      | some p =>
        dsimp only at h
        split at h
        · split at h
          · cases h
          · next hsame =>
            cases h
            -- the peer has the same amount reserved, which is within what it has left
            have hpeer : Amends p (consume o.pricInFlightSat p) :=
              amends_consume hpos fun hp => not_not.mp hsame ▸ hp.2.1
            exact ⟨htarget, fun p' hp' => by cases hp'; exact ⟨p, rfl, hpeer⟩⟩
        · cases h
          exact ⟨htarget, fun p' hp' => ⟨p', hp', .refl p'⟩⟩

theorem amends_applyUnmatch (o : Order) (peer : Option Order) (o' : Order) (peer' : Option Order)
    (h : applyUnmatch now o peer = .ok (o', peer')) :
    Amends o o' ∧ ∀ p' ∈ peer', ∃ p ∈ peer, Amends p p' := by
  cases h
  refine ⟨amends_release .active o, fun p' hp' => ?_⟩
  obtain ⟨p, hp, rfl⟩ := map_eq_some_iff.mp hp'
  exact ⟨p, hp, amends_released_peer p⟩

theorem amended_planMatch {myOrderId theirOrderId : Uint256} {amount : Int64}
    (hplan : planMatch myOrderId theirOrderId amount now orders = .ok changed) :
    changed.length ≤ 2 ∧ ∀ o ∈ changed, Amended orders o := by
  unfold planMatch at hplan
  split at hplan
  · next mine theirs hm ht =>
    split at hplan
    · cases hplan
    · next hmatch =>
      cases hplan
      obtain ⟨-, -, hpos, hmine, htheirs⟩ := evaluateMatch_some hmatch
      have hreserve : ∀ (o : Order) (peerId : Uint256), amount ≤ o.pricRemainingSat →
          Amends o (reserve amount peerId now o) := fun o peerId hle =>
        ⟨rfl, rfl, rfl, fun h => ⟨⟨Int64.le_of_lt hpos, hle, h.2.2⟩, Int64.le_refl _⟩⟩
      refine ⟨Nat.le_refl 2, ?_⟩
      rw [forall_mem_cons, forall_mem_singleton]
      exact ⟨⟨_, mine, hm, hreserve mine _ hmine⟩, _, theirs, ht, hreserve theirs _ htheirs⟩
  · cases hplan

theorem amended_planLink {swapId : Uint256}
    (hplan : planLink orderId swapId now orders = .ok changed) :
    changed.length ≤ 1 ∧ ∀ o ∈ changed, Amended orders o := by
  unfold planLink at hplan
  cases ho : orders[orderId]? with
  | none => simp [ho] at hplan
  | some o =>
    simp only [ho] at hplan
    repeat' split at hplan
    all_goals cases hplan
    · simp
    · refine ⟨Nat.le_refl 1, forall_mem_singleton.mpr ⟨_, o, ho, rfl, rfl, rfl, ?_⟩⟩
      exact fun h => ⟨h, Int64.le_refl _⟩

theorem amended_planLinkedFill {consumedSat : Int64} (hpos : 0 < consumedSat)
    (hplan : planLinkedFill orderId consumedSat now orders = .ok changed) :
    changed.length ≤ 1 ∧ ∀ o ∈ changed, Amended orders o := by
  unfold planLinkedFill at hplan
  cases ho : orders[orderId]? with
  | none => simp [ho] at hplan
  | some o =>
    simp only [ho] at hplan
    split at hplan
    · cases hplan
      simp
    · split at hplan
      · cases hplan
        simp
      · next hleft =>
        cases hplan
        refine ⟨Nat.le_refl 1, forall_mem_singleton.mpr ⟨_, o, ho, amends_touch ?_⟩⟩
        exact amends_consume hpos fun _ => Int64.not_lt.mp hleft

/-- The notes and the signature that a call brings are not too long for a row. -/
def RowsFit (lib : OfferLibrary) (seals : Sealing ι) (orders : Orders) : Call → Prop
  | .create params _ => ∀ p key signature, lib.signPayload p = some (key, signature) →
      Storable seals params.notes signature
  | .importOffer uri => ∀ payload, lib.decodeUri uri = some payload →
      Storable seals [] payload.signature
  | .applyImportedUpdate uri => ∀ payload o, lib.decodeUri uri = some payload →
      orders[payload.orderId]? = some o → Storable seals o.notes payload.signature
  | _ => True

/-- The calls that replace an order and its peer. -/
def Call.Pairs : Call → Prop
  | .cancel _ | .matchOrders .. | .fill _ | .unmatch _ => True
  | _ => False

/-- What a call replaces can be stored, and it is one order unless the call is for a pair. -/
theorem Replaces.storable {c : Call} {changed : List Order}
    (hstored : ∀ (id : Uint256) (o : Order), orders[id]? = some o →
      Storable seals o.notes o.payload.signature)
    (hfit : RowsFit lib seals orders c) (hchange : Replaces lib now orders c changed) :
    (∀ o ∈ changed, Storable seals o.notes o.payload.signature) ∧
      changed.length ≤ 2 ∧ (¬ c.Pairs → changed.length ≤ 1) := by
  have hkept : (∀ o ∈ changed, Amended orders o) →
      ∀ o ∈ changed, Storable seals o.notes o.payload.signature := by
    intro hall o ho
    obtain ⟨id, prior, hprior, hpayload, hnotes⟩ := (hall o ho).kept
    rw [hpayload, hnotes]
    exact hstored id prior hprior
  have hone : changed.length ≤ 1 → changed.length ≤ 2 ∧ (¬ c.Pairs → changed.length ≤ 1) :=
    fun h => ⟨by omega, fun _ => h⟩
  cases hchange with
  | create hid hpos hforeign hsigned =>
    obtain ⟨p, hsign⟩ := hsigned
    obtain ⟨key, hsign⟩ := signPayload_of_sign hsign
    exact ⟨forall_mem_singleton.mpr (hfit p key _ hsign), hone (Nat.le_refl 1)⟩
  | importOffer huri hpos hforeign hnew =>
    exact ⟨forall_mem_singleton.mpr (hfit _ huri), hone (Nat.le_refl 1)⟩
  | update huri hpos hforeign hplan =>
    unfold planUpdate at hplan
    split at hplan
    · cases hplan
    · next o ho =>
      repeat' split at hplan
      all_goals cases hplan
      · simp
      · exact ⟨forall_mem_singleton.mpr (hfit _ o huri ho), hone (Nat.le_refl 1)⟩
  | cancel hplan =>
    obtain ⟨hlength, hall⟩ := amended_planCancel hplan
    exact ⟨hkept hall, hlength, fun h => absurd trivial h⟩
  | matchOrders hne hplan =>
    obtain ⟨hlength, hall⟩ := amended_planMatch hplan
    exact ⟨hkept hall, hlength, fun h => absurd trivial h⟩
  | fill hplan =>
    obtain ⟨hlength, hall⟩ := amended_planMatchedPair amends_applyFill hplan
    exact ⟨hkept hall, hlength, fun h => absurd trivial h⟩
  | linkSwap hplan =>
    obtain ⟨hlength, hall⟩ := amended_planLink hplan
    exact ⟨hkept hall, hone hlength⟩
  | linkedFill hpos hplan =>
    obtain ⟨hlength, hall⟩ := amended_planLinkedFill hpos hplan
    exact ⟨hkept hall, hone hlength⟩
  | unmatch hplan =>
    obtain ⟨hlength, hall⟩ := amended_planMatchedPair amends_applyUnmatch hplan
    exact ⟨hkept hall, hlength, fun h => absurd trivial h⟩

end Changes

section Sweeps

variable {byId : Orders}

theorem mem_sweptRows {blob : List UInt8} :
    (id, blob) ∈ sweptRows seals env now byId ↔
      ∃ (key : Uint256) (o : Order) (seed : ι), byId[key]? = some o ∧ Expires now o ∧
        env.sweeps key = some seed ∧ o.payload.orderId = id ∧
        sealOrder seals seed (expire now o) = blob := by
  unfold sweptRows
  rw [mem_filterMap]
  constructor
  · rintro ⟨⟨key, o⟩, hmem, hrow⟩
    dsimp only at hrow
    split at hrow
    · next hexp =>
      obtain ⟨seed, hseed, hpair⟩ := map_eq_some_iff.mp hrow
      cases hpair
      exact ⟨key, o, seed, ExtTreeMap.mem_toList_iff_getElem?_eq_some.mp hmem, hexp, hseed, rfl,
        rfl⟩
    · cases hrow
  · rintro ⟨key, o, seed, ho, hexp, hseed, rfl, rfl⟩
    refine ⟨(key, o), ExtTreeMap.mem_toList_iff_getElem?_eq_some.mpr ho, ?_⟩
    simp [hexp, hseed]

section

variable (hkeyed : ∀ (id : Uint256) (o : Order), byId[id]? = some o → o.payload.orderId = id)
include hkeyed

/-- Where the orders are under their ids, no row is written twice. -/
theorem pairwise_sweptRows :
    (sweptRows seals env now byId).Pairwise fun a b => ¬ compareBytes a.1 b.1 = .eq := by
  unfold sweptRows
  rw [pairwise_filterMap]
  have hkey : ∀ entry ∈ byId.toList, ∀ row : Uint256 × List UInt8,
      (if Expires now entry.2 then (env.sweeps entry.1).map fun seed =>
        (entry.2.payload.orderId, sealOrder seals seed (expire now entry.2))
      else none) = some row → row.1 = entry.1 := by
    rintro ⟨key, o⟩ hmem row hrow
    dsimp only at hrow
    split at hrow
    · obtain ⟨seed, -, rfl⟩ := map_eq_some_iff.mp hrow
      exact hkeyed key o (ExtTreeMap.mem_toList_iff_getElem?_eq_some.mp hmem)
    · cases hrow
  refine ExtTreeMap.distinct_keys_toList.imp_of_mem fun {entry entry'} hmem hmem' hne => ?_
  intro row hrow row' hrow'
  rw [hkey entry hmem row hrow, hkey entry' hmem' row' hrow']
  exact hne

theorem getElem?_sweptRows_of_expires {seed : ι} (ho : byId[id]? = some o) (hexp : Expires now o)
    (hseed : env.sweeps id = some seed) :
    (rows.insertMany (sweptRows seals env now byId))[id]? =
      some (sealOrder seals seed (expire now o)) :=
  ExtTreeMap.getElem?_insertMany_list_of_mem (LawfulEqCmp.compare_eq_iff_eq.mpr rfl)
    (pairwise_sweptRows hkeyed)
    (mem_sweptRows.mpr ⟨id, o, seed, ho, hexp, hseed, hkeyed id o ho, rfl⟩)

theorem getElem?_sweptRows_of_not_expires (hexp : ∀ o, byId[id]? = some o → ¬ Expires now o) :
    (rows.insertMany (sweptRows seals env now byId))[id]? = rows[id]? := by
  refine ExtTreeMap.getElem?_insertMany_list_of_contains_eq_false ?_
  refine Bool.eq_false_iff.mpr fun hcontains => ?_
  obtain ⟨⟨id', blob⟩, hrow, rfl⟩ := mem_map.mp (contains_iff_mem.mp hcontains)
  obtain ⟨key, o, seed, ho, hexpires, -, hid, -⟩ := mem_sweptRows.mp hrow
  obtain rfl : key = id' := (hkeyed key o ho).symm.trans hid
  exact hexp o ho hexpires

end

theorem expire_kept (o : Order) :
    (expire now o).payload = o.payload ∧ (expire now o).notes = o.notes := by
  unfold expire
  split <;> exact ⟨rfl, rfl⟩

/-- After a sweep that writes all its rows a fresh load gives the swept orders. -/
theorem loadFromDB_sweep {b : Book} (h : loadFromDB seals b.rows = some b.byId)
    (hkeyed : ∀ (id : Uint256) (o : Order), b.byId[id]? = some o → o.payload.orderId = id)
    (hstored : ∀ (id : Uint256) (o : Order), b.byId[id]? = some o →
      Storable seals o.notes o.payload.signature)
    (hwrites : ∀ (id : Uint256) (o : Order), b.byId[id]? = some o → Expires now o →
      (env.sweeps id).isSome) :
    loadFromDB seals (sweepExpiredLocked seals env now b).rows =
      some (sweepExpiredLocked seals env now b).byId := by
  obtain ⟨hread, horders⟩ := loadFromDB_eq_some.mp h
  have hmap : ∀ id : Uint256, (sweepExpiredLocked seals env now b).byId[id]? =
      (b.byId[id]?).map (expire now) := fun id => ExtTreeMap.getElem?_map
  -- each row is one that was written or the one that was there
  have hrow : ∀ id : Uint256,
      (∃ o seed, b.byId[id]? = some o ∧ Expires now o ∧
        (sweepExpiredLocked seals env now b).rows[id]? =
          some (sealOrder seals seed (expire now o))) ∨
      ((∀ o, b.byId[id]? = some o → ¬ Expires now o) ∧
        (sweepExpiredLocked seals env now b).rows[id]? = b.rows[id]?) := by
    intro id
    by_cases hexp : ∃ o, b.byId[id]? = some o ∧ Expires now o
    · obtain ⟨o, ho, hexp⟩ := hexp
      obtain ⟨seed, hseed⟩ := isSome_iff_exists.mp (hwrites id o ho hexp)
      exact .inl ⟨o, seed, ho, hexp, getElem?_sweptRows_of_expires hkeyed ho hexp hseed⟩
    · have hnone : ∀ o, b.byId[id]? = some o → ¬ Expires now o :=
        fun o ho h => hexp ⟨o, ho, h⟩
      exact .inr ⟨hnone, getElem?_sweptRows_of_not_expires hkeyed hnone⟩
  have hsize : ∀ (id : Uint256) (o : Order) (seed : ι), b.byId[id]? = some o →
      (sealOrder seals seed (expire now o)).length ≤ maxSize := by
    intro id o seed ho
    obtain ⟨hpayload, hnotes⟩ := @expire_kept now o
    exact hstored id o ho seed _ hnotes (congrArg _ hpayload)
  refine loadFromDB_eq_some.mpr ⟨fun id blob hblob => ?_, fun id => ?_⟩
  · rcases hrow id with ⟨o, seed, ho, -, hwritten⟩ | ⟨-, hsame⟩
    · cases hwritten.symm.trans hblob
      refine ⟨hsize id o seed ho, ?_⟩
      rw [sealOrder, seals.decrypt_encrypt, isSome_some]
    · exact hread id blob (hsame.symm.trans hblob)
  · rw [hmap]
    rcases hrow id with ⟨o, seed, ho, -, hwritten⟩ | ⟨hnone, hsame⟩
    · have hid : (expire now o).payload.orderId = id := by
        rw [(@expire_kept now o).1]
        exact hkeyed id o ho
      rw [hwritten, ho, map_some, bind_some, ← hid,
        openRow_sealOrder (hsize id o seed ho)]
    · rw [hsame, ← horders]
      cases ho : b.byId[id]? with
      | none => rfl
      | some o => rw [map_some, expire, if_neg (hnone o ho)]

end Sweeps

section Histories

/-- Calls, and starts of the process. -/
inductive Event (ι : Type) where
  | call (env : Conditions ι) (c : Call)
  | restart

def advance (lib : OfferLibrary) (seals : Sealing ι) (b : Book) : Event ι → Book
  | .call env c => perform lib seals env b c
  | .restart => .fresh b.rows

/-- A call for a pair does not fail between its two writes, and the rows of the orders that a call
sweeps are written. -/
def WritesWhole (env : Conditions ι) (orders : Orders) (c : Call) : Prop :=
  (c.Pairs → (env.writes 0).isSome → (env.writes 1).isSome) ∧
    ∀ now, c.sweepTime env.now = some now → ∀ (id : Uint256) (o : Order), orders[id]? = some o →
      Expires now o → (env.sweeps id).isSome

def Whole (lib : OfferLibrary) (seals : Sealing ι) (b : Book) : Event ι → Prop
  | .call env c => KeepsPairs lib (b.orders seals) c ∧ RowsFit lib seals (b.orders seals) c ∧
      WritesWhole env (b.orders seals) c
  | .restart => True

/-- The rows give sound orders, which are those in memory once they are loaded. -/
structure Recorded (seals : Sealing ι) (b : Book) (orders : Orders) : Prop where
  load : loadFromDB seals b.rows = some orders
  sound : Sound False orders
  stored : ∀ (id : Uint256) (o : Order), orders[id]? = some o →
    Storable seals o.notes o.payload.signature
  memory : b.loaded → b.byId = orders

variable {b b' : Book} {orders : Orders}

theorem Recorded.orders_eq (h : Recorded seals b orders) : b.orders seals = orders := by
  unfold Book.orders
  split
  · next hloaded => exact h.memory hloaded
  · rw [h.load, getD_some]

theorem Recorded.ensureLoaded (h : Recorded seals b orders)
    (hload : ensureLoaded seals env b = some b') :
    b'.byId = orders ∧ Recorded seals b' orders := by
  obtain ⟨-, hrows, hbyId⟩ := ensureLoaded_some hload
  have heq : b'.byId = orders := hbyId.trans h.orders_eq
  exact ⟨heq, hrows ▸ h.load, h.sound, h.stored, fun _ => heq⟩

/-- Orders that are written whole are recorded. A first write that fails changes nothing. -/
theorem Recorded.settle (h : Recorded seals b b.byId) (hsound : Sound False (place b.byId changed))
    (hstored : ∀ o ∈ changed, Storable seals o.notes o.payload.signature)
    (hlength : changed.length ≤ 2)
    (hwrites : 1 < changed.length → (env.writes 0).isSome → (env.writes 1).isSome) :
    ∃ orders, Recorded seals (settle seals env changed b) orders := by
  unfold OrderBook.settle persist
  by_cases hfirst : changed ≠ [] ∧ env.writes 0 = none
  · obtain ⟨o, rest, rfl⟩ := exists_cons_of_ne_nil hfirst.1
    simp only [writeRows, hfirst.2]
    exact ⟨b.byId, h⟩
  · have hall : ∀ i < changed.length, (env.writes (0 + i)).isSome := by
      intro i hi
      have hzero : (env.writes 0).isSome := by
        refine isSome_iff_ne_none.mpr fun hnone => hfirst ⟨?_, hnone⟩
        rintro rfl
        exact absurd hi (Nat.not_lt_zero i)
      rw [Nat.zero_add]
      obtain rfl | rfl : i = 0 ∨ i = 1 := by omega
      · exact hzero
      · exact hwrites (by omega) hzero
    obtain ⟨hwritten, hload⟩ := loadFromDB_writeRows hstored hall h.load
    rcases hrows : writeRows seals env 0 b.rows changed with ⟨written, rows⟩
    rw [hrows] at hwritten hload
    dsimp only at hwritten hload ⊢
    rw [if_pos hwritten]
    refine ⟨place b.byId changed, hload, hsound, fun id o ho => ?_, fun _ => rfl⟩
    exact (mem_of_place ho).elim (fun hmem => hstored o hmem.1) (h.stored id o)

theorem Recorded.sweep {now : Int64} (h : Recorded seals b b.byId)
    (hwrites : ∀ (id : Uint256) (o : Order), b.byId[id]? = some o → Expires now o →
      (env.sweeps id).isSome) :
    Recorded seals (sweepExpiredLocked seals env now b)
      (sweepExpiredLocked seals env now b).byId where
  load := loadFromDB_sweep h.load h.sound.keyed h.stored hwrites
  sound := h.sound.sweep now
  stored id o' ho' := by
    obtain ⟨o, ho, rfl⟩ := map_eq_some_iff.mp (ExtTreeMap.getElem?_map.symm.trans ho')
    obtain ⟨hpayload, hnotes⟩ := @expire_kept now o
    rw [hpayload, hnotes]
    exact h.stored id o ho
  memory _ := rfl

theorem Recorded.effect {c : Call} (h : Recorded seals b b.byId)
    (hpairs : KeepsPairs lib b.byId c) (hfit : RowsFit lib seals b.byId c)
    (hwhole : WritesWhole env b.byId c) (heffect : Effect lib seals env c b b') :
    ∃ orders, Recorded seals b' orders := by
  cases heffect with
  | nothing => exact ⟨b.byId, h⟩
  | sweep htime => exact ⟨_, h.sweep (hwhole.2 _ htime)⟩
  | replace hchange =>
    obtain ⟨hstored, hlength, hone⟩ := hchange.storable h.stored hfit
    refine h.settle (h.sound.replaces hpairs False.elim hchange) hstored hlength ?_
    intro htwo
    exact hwhole.1 (Classical.byContradiction fun hno => by have := hone hno; omega)
  | sweepMatch hc hchange =>
    have hswept : Recorded seals (sweepExpiredLocked seals env env.now b) _ :=
      h.sweep (hwhole.2 env.now (by rw [hc]; rfl))
    have hpairs' : KeepsPairs lib (sweepExpiredLocked seals env env.now b).byId c := by
      rw [hc]
      trivial
    have hfit' : RowsFit lib seals (sweepExpiredLocked seals env env.now b).byId c := by
      rw [hc]
      trivial
    obtain ⟨hstored, hlength, -⟩ := hchange.storable hswept.stored hfit'
    exact hswept.settle (hswept.sound.replaces hpairs' False.elim hchange) hstored hlength
      fun _ => hwhole.1 (by rw [hc]; trivial)

theorem Recorded.advance (h : Recorded seals b orders) {event : Event ι}
    (hwhole : Whole lib seals b event) :
    ∃ orders', Recorded seals (advance lib seals b event) orders' := by
  cases event with
  | restart => exact ⟨orders, h.load, h.sound, h.stored, nofun⟩
  | call env c =>
    obtain ⟨hpairs, hfit, hwrites⟩ := hwhole
    rw [h.orders_eq] at hpairs hfit hwrites
    rcases perform_cases b c with hsame | ⟨b', hload, heffect⟩
    · exact ⟨orders, by rw [OrderBook.advance, hsame]; exact h⟩
    · obtain ⟨rfl, hrecorded⟩ := h.ensureLoaded hload
      exact hrecorded.effect hpairs hfit hwrites heffect

/-- In every history in which the calls keep the pairs and the writes of a call do not fail in its
middle, a fresh load gives the orders in memory and both sides of each pair. -/
theorem fresh_load_eq_memory (lib : OfferLibrary) (seals : Sealing ι) (events : List (Event ι))
    (hwhole : Always (OrderBook.advance lib seals) (Whole lib seals) (.fresh ∅) events) :
    ∃ orders : Orders,
      loadFromDB seals (events.foldl (OrderBook.advance lib seals) (.fresh ∅)).rows =
        some orders ∧
      ((events.foldl (OrderBook.advance lib seals) (.fresh ∅)).loaded →
        (events.foldl (OrderBook.advance lib seals) (.fresh ∅)).byId = orders) ∧
      ∀ (id : Uint256) (o : Order), orders[id]? = some o → o.status = .matched →
        ∃ p, orders[o.matchedWithOrderId]? = some p ∧ p.status = .matched ∧
          p.matchedWithOrderId = id := by
  have hstart : ∃ orders, Recorded seals (.fresh ∅) orders :=
    ⟨∅, loadFromDB_empty, sound_empty, fun _ _ h => by simp at h, nofun⟩
  have hstep : ∀ (b : Book) (event : Event ι), Whole lib seals b event →
      (∃ orders, Recorded seals b orders) →
        ∃ orders, Recorded seals (OrderBook.advance lib seals b event) orders := by
    rintro b event hevent ⟨orders, h⟩
    exact h.advance hevent
  obtain ⟨orders, hrecorded⟩ := hwhole.invariant hstep hstart
  refine ⟨orders, hrecorded.load, hrecorded.memory, fun id o ho hmatched => ?_⟩
  obtain ⟨-, -, -, p, hp, hstatus, hwith, -⟩ := hrecorded.sound.paired_of_matched ho hmatched
  exact ⟨p, hp, hstatus, hwith⟩

end Histories

section Samples

/-- The first write of the call succeeds, and no other. -/
def faltering : Conditions Unit := { calm with writes := fun n => if n = 0 then some () else none }

/-- The two orders of the sample are matched, and the second row is not written. -/
def halfMatch : List (Event Unit) :=
  [.call calm (.create ⟨sellPric, 0, 100000, 100000, 100, []⟩ (sampleId 1)),
    .call calm (.importOffer [2, 10]),
    .call faltering (.matchOrders (sampleId 1) (sampleId 2) 50000)]

/-- The rows where the second of two writes failed. -/
def halfMatched : Book := halfMatch.foldl (advance sampleOffers plainSealing) (.fresh ∅)

/-- An order is recorded as matched with one that is not, and in memory it is not matched. -/
theorem half_recorded_pair :
    ((loadFromDB plainSealing halfMatched.rows).bind (·[sampleId 1]?)).map
        (fun o => (o.status, o.matchedWithOrderId)) = some (.matched, sampleId 2) ∧
      ((loadFromDB plainSealing halfMatched.rows).bind (·[sampleId 2]?)).map (·.status) =
        some .active ∧
      (halfMatched.byId[sampleId 1]?).map (·.status) = some .active := by
  decide +kernel

theorem length_writeOrder (o : Order) :
    (writeOrder o).length = 190 + (RecordCodecs.bytes.write o.payload.signature).length +
      (RecordCodecs.bytes.write o.notes).length := by
  simp [writeOrder, unlinkedCodec, payloadCodec, Codec.via, Codec.pair, Codec.block, Codec.byte,
    RecordCodecs.sint64, Codec.int64, Codec.uint]
  omega

theorem storable_sample : Storable plainSealing [] [1] := by
  intro seed o hnotes hsignature
  rw [sealOrder, plainSealing, length_writeOrder, hnotes, hsignature]
  decide

/-- The two orders of the sample are matched, with both rows written. -/
def wholeMatch : List (Event Unit) := sampleMatch.map fun call => .call call.1 call.2

theorem whole_sample :
    Always (advance sampleOffers plainSealing) (Whole sampleOffers plainSealing) (.fresh ∅)
      wholeMatch := by
  refine ⟨⟨⟨by decide, rfl⟩, ?_, nofun, nofun⟩, ⟨?_, ?_, nofun, nofun⟩,
    ⟨trivial, trivial, fun _ _ => rfl, fun _ _ _ _ _ _ => rfl⟩, trivial⟩
  · intro p key signature hsign
    cases hsign
    exact storable_sample
  · intro payload hpayload
    cases hpayload
    decide
  · intro payload hpayload
    cases hpayload
    exact storable_sample

theorem fresh_load_eq_memory_sample :
    ∃ orders : Orders,
      loadFromDB plainSealing
          (wholeMatch.foldl (advance sampleOffers plainSealing) (.fresh ∅)).rows = some orders ∧
        ((wholeMatch.foldl (advance sampleOffers plainSealing) (.fresh ∅)).loaded →
          (wholeMatch.foldl (advance sampleOffers plainSealing) (.fresh ∅)).byId = orders) ∧
        ∀ (id : Uint256) (o : Order), orders[id]? = some o → o.status = .matched →
          ∃ p, orders[o.matchedWithOrderId]? = some p ∧ p.status = .matched ∧
            p.matchedWithOrderId = id :=
  fresh_load_eq_memory sampleOffers plainSealing wholeMatch whole_sample

end Samples

end Pricoin.OrderBook
