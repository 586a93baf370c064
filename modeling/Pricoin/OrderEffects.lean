import Pricoin.OrderBook

/-!
What the calls of the order book can do. A call is refused, or it loads the orders, sweeps
those past their time if it is one that does, and replaces the orders that it decided on.
-/
namespace Pricoin.OrderBook

open ByteStreams KeyImageFile Std Option
open DurableRecords (Sealing)

variable {b : Book} {c : Call}

section Effects

variable {ι ε : Type} {lib : OfferLibrary} {seals : Sealing ι} {env : Conditions ι}

/-- The orders that a call replaces, once it has decided to. -/
inductive Replaces (lib : OfferLibrary) (now : Int64) (orders : Orders) :
    Call → List Order → Prop
  | create {params : CreateParams} {orderId : Uint256} {payload : OfferPayload}
      (hid : payload.orderId = orderId) (hpos : 0 < payload.maxPricAmountSat)
      (hforeign : 0 < payload.foreignAmountAtMaxSat)
      (hsigned : ∃ p, sign lib p = some payload) :
      Replaces lib now orders (.create params orderId)
        [newOrder payload .locally params.notes now]
  | importOffer {uri : List UInt8} {payload : OfferPayload}
      (huri : lib.decodeUri uri = some payload) (hpos : 0 < payload.maxPricAmountSat)
      (hforeign : 0 < payload.foreignAmountAtMaxSat)
      (hnew : orders[payload.orderId]? = none) :
      Replaces lib now orders (.importOffer uri) [newOrder payload .imported [] now]
  | update {uri : List UInt8} {payload : OfferPayload} {changed : List Order}
      (huri : lib.decodeUri uri = some payload) (hpos : 0 < payload.maxPricAmountSat)
      (hforeign : 0 < payload.foreignAmountAtMaxSat)
      (hplan : planUpdate payload now orders = .ok changed) :
      Replaces lib now orders (.applyImportedUpdate uri) changed
  | cancel {orderId : Uint256} {changed : List Order}
      (hplan : planCancel orderId now orders = .ok changed) :
      Replaces lib now orders (.cancel orderId) changed
  | matchOrders {myOrderId theirOrderId : Uint256} {amount : Int64} {changed : List Order}
      (hne : myOrderId ≠ theirOrderId)
      (hplan : planMatch myOrderId theirOrderId amount now orders = .ok changed) :
      Replaces lib now orders (.matchOrders myOrderId theirOrderId amount) changed
  | fill {orderId : Uint256} {changed : List Order}
      (hplan : planMatchedPair orderId now applyFill orders = .ok changed) :
      Replaces lib now orders (.fill orderId) changed
  | linkSwap {orderId swapId : Uint256} {changed : List Order}
      (hplan : planLink orderId swapId now orders = .ok changed) :
      Replaces lib now orders (.linkSwap orderId swapId) changed
  | linkedFill {orderId : Uint256} {consumedSat : Int64} {changed : List Order}
      (hpos : 0 < consumedSat)
      (hplan : planLinkedFill orderId consumedSat now orders = .ok changed) :
      Replaces lib now orders (.fillFromLinkedSwap orderId consumedSat) changed
  | unmatch {orderId : Uint256} {changed : List Order}
      (hplan : planMatchedPair orderId now (applyUnmatch now) orders = .ok changed) :
      Replaces lib now orders (.unmatch orderId) changed

/-- The book after the rows of the orders were written, or some of them. -/
def settle (seals : Sealing ι) (env : Conditions ι) (orders : List Order) (b : Book) : Book :=
  (persist seals env () () orders b).2

@[simp] theorem persist_snd (failed ok : ε) (orders : List Order) (b : Book) :
    (persist seals env failed ok orders b).2 = settle seals env orders b := by
  unfold settle persist
  rcases writeRows seals env 0 b.rows orders with ⟨_ | _, rows⟩ <;> rfl

/-- The time at which a call sweeps, if it is one that does. -/
def Call.sweepTime (now : Int64) : Call → Option Int64
  | .matchOrders .. | .get _ | .list | .findMatches _ | .exportUri _ => some now
  | .sweepExpired time => some time
  | _ => none

/-- What a call does once the orders are loaded: it may sweep, it may replace orders, and it may
sweep and then match two. -/
inductive Effect (lib : OfferLibrary) (seals : Sealing ι) (env : Conditions ι) (c : Call)
    (b : Book) : Book → Prop
  | nothing : Effect lib seals env c b b
  | sweep {now : Int64} (htime : c.sweepTime env.now = some now) :
      Effect lib seals env c b (sweepExpiredLocked seals env now b)
  | replace {changed : List Order} (h : Replaces lib env.now b.byId c changed) :
      Effect lib seals env c b (settle seals env changed b)
  | sweepMatch {myOrderId theirOrderId : Uint256} {amount : Int64} {changed : List Order}
      (hc : c = .matchOrders myOrderId theirOrderId amount)
      (h : Replaces lib env.now (sweepExpiredLocked seals env env.now b).byId c changed) :
      Effect lib seals env c b
        (settle seals env changed (sweepExpiredLocked seals env env.now b))

theorem access_cases {locked failed : ε} {act : Book → ε × Book} :
    (access seals env locked failed act b).2 = b ∨
      ∃ b', ensureLoaded seals env b = some b' ∧
        (access seals env locked failed act b).2 = (act b').2 := by
  unfold access
  by_cases hlocked : env.locked
  · exact .inl (by rw [if_pos hlocked])
  · rw [if_neg hlocked]
    cases hload : ensureLoaded seals env b with
    | none => exact .inl rfl
    | some b' => exact .inr ⟨b', rfl, rfl⟩

/-- What a call that changes orders does, from what its plan says. -/
theorem amend_effect {plan : Orders → Except MutateResult (List Order)}
    (hplan : ∀ changed, plan b.byId = .ok changed → Replaces lib env.now b.byId c changed) :
    Effect lib seals env c b (amend seals env plan b).2 := by
  unfold amend
  cases h : plan b.byId with
  | error r => exact .nothing
  | ok changed =>
    rw [persist_snd]
    exact .replace (hplan changed h)

theorem mutate_cases {plan : Orders → Except MutateResult (List Order)}
    (hplan : ∀ orders changed, plan orders = .ok changed → Replaces lib env.now orders c changed) :
    (mutate seals env plan b).2 = b ∨ ∃ b', ensureLoaded seals env b = some b' ∧
      Effect lib seals env c b' (mutate seals env plan b).2 := by
  unfold mutate
  refine access_cases.imp_right ?_
  rintro ⟨b', hload, heq⟩
  exact ⟨b', hload, heq ▸ amend_effect (hplan b'.byId)⟩

theorem look_cases (htime : c.sweepTime env.now = some env.now) (answer : Orders → LookupResult × ε)
    (absent : ε) :
    (look seals env answer absent b).2 = b ∨ ∃ b', ensureLoaded seals env b = some b' ∧
      Effect lib seals env c b' (look seals env answer absent b).2 := by
  unfold look
  refine access_cases.imp_right ?_
  rintro ⟨b', hload, heq⟩
  exact ⟨b', hload, heq ▸ .sweep htime⟩

theorem signPayload_of_sign {p q : OfferPayload} (h : sign lib p = some q) :
    ∃ key, lib.signPayload p = some (key, q.signature) := by
  obtain ⟨signed, hsigned, rfl⟩ := map_eq_some_iff.mp (eq_some_of_filter_eq_some h)
  exact ⟨signed.1, hsigned⟩

theorem create_cases (params : CreateParams) (orderId : Uint256) (b : Book) :
    (create lib seals env params orderId b).2 = b ∨ ∃ b', ensureLoaded seals env b = some b' ∧
      Effect lib seals env (.create params orderId) b'
        (create lib seals env params orderId b).2 := by
  unfold create
  by_cases hmax : params.maxPricAmountSat ≤ 0
  · exact .inl (by rw [if_pos hmax])
  by_cases hforeign : params.foreignAmountAtMaxSat ≤ 0
  · exact .inl (by rw [if_neg hmax, if_pos hforeign])
  by_cases hexpiry : params.expiryUnixSec ≤ 0
  · exact .inl (by rw [if_neg hmax, if_neg hforeign, if_pos hexpiry])
  by_cases hlocked : env.locked
  · exact .inl (by rw [if_neg hmax, if_neg hforeign, if_neg hexpiry, if_pos hlocked])
  rw [if_neg hmax, if_neg hforeign, if_neg hexpiry, if_neg hlocked]
  cases hsign : sign lib ⟨1, orderId, params.side, params.foreignChain, params.maxPricAmountSat,
      params.foreignAmountAtMaxSat, params.expiryUnixSec, .replicate 33 0, []⟩ with
  | none => exact .inl rfl
  | some payload =>
    refine access_cases.imp_right ?_
    rintro ⟨b', hload, heq⟩
    refine ⟨b', hload, ?_⟩
    dsimp only at heq ⊢
    rw [heq, persist_snd]
    obtain ⟨signed, -, rfl⟩ :=
      map_eq_some_iff.mp (eq_some_of_filter_eq_some hsign)
    exact .replace (.create rfl (Int64.not_le.mp hmax) (Int64.not_le.mp hforeign) ⟨_, hsign⟩)

theorem importOffer_cases (uri : List UInt8) (b : Book) :
    (importOffer lib seals env uri b).2 = b ∨ ∃ b', ensureLoaded seals env b = some b' ∧
      Effect lib seals env (.importOffer uri) b' (importOffer lib seals env uri b).2 := by
  unfold importOffer
  cases huri : lib.decodeUri uri with
  | none => exact .inl rfl
  | some payload =>
    dsimp only
    by_cases hverify : !lib.verifySignedPayload payload
    · exact .inl (by rw [if_pos hverify])
    by_cases hinvalid : payload.maxPricAmountSat ≤ 0 ∨ payload.foreignAmountAtMaxSat ≤ 0 ∨
        payload.expiryUnixSec ≤ 0
    · exact .inl (by rw [if_neg hverify, if_pos hinvalid])
    by_cases hexpired : payload.expiryUnixSec ≤ env.now
    · exact .inl (by rw [if_neg hverify, if_neg hinvalid, if_pos hexpired])
    rw [if_neg hverify, if_neg hinvalid, if_neg hexpired]
    refine access_cases.imp_right ?_
    rintro ⟨b', hload, heq⟩
    refine ⟨b', hload, ?_⟩
    rw [heq]
    by_cases hdup : b'.byId.contains payload.orderId
    · rw [if_pos hdup]
      exact .nothing
    · rw [if_neg hdup, persist_snd]
      refine .replace (.importOffer huri (Int64.not_le.mp fun h => hinvalid (.inl h))
        (Int64.not_le.mp fun h => hinvalid (.inr (.inl h))) ?_)
      exact ExtTreeMap.getElem?_eq_none (by simpa using hdup)

theorem applyImportedUpdate_cases (uri : List UInt8) (b : Book) :
    (applyImportedUpdate lib seals env uri b).2 = b ∨
      ∃ b', ensureLoaded seals env b = some b' ∧
        Effect lib seals env (.applyImportedUpdate uri) b'
          (applyImportedUpdate lib seals env uri b).2 := by
  unfold applyImportedUpdate
  cases huri : lib.decodeUri uri with
  | none => exact .inl rfl
  | some payload =>
    dsimp only
    by_cases hverify : !lib.verifySignedPayload payload
    · exact .inl (by rw [if_pos hverify])
    by_cases hinvalid : payload.maxPricAmountSat ≤ 0 ∨ payload.foreignAmountAtMaxSat ≤ 0
    · exact .inl (by rw [if_neg hverify, if_pos hinvalid])
    rw [if_neg hverify, if_neg hinvalid]
    exact mutate_cases fun orders changed =>
      .update huri (Int64.not_le.mp fun h => hinvalid (.inl h))
        (Int64.not_le.mp fun h => hinvalid (.inr h))

theorem matchOrders_cases (myOrderId theirOrderId : Uint256) (amount : Int64) (b : Book) :
    (matchOrders seals env myOrderId theirOrderId amount b).2 = b ∨
      ∃ b', ensureLoaded seals env b = some b' ∧
        Effect lib seals env (.matchOrders myOrderId theirOrderId amount) b'
          (matchOrders seals env myOrderId theirOrderId amount b).2 := by
  unfold matchOrders
  by_cases hsame : myOrderId = theirOrderId
  · exact .inl (by rw [if_pos hsame])
  by_cases hpos : amount ≤ 0
  · exact .inl (by rw [if_neg hsame, if_pos hpos])
  rw [if_neg hsame, if_neg hpos]
  refine access_cases.imp_right ?_
  rintro ⟨b', hload, heq⟩
  refine ⟨b', hload, ?_⟩
  rw [heq]
  unfold amend
  cases hplan : planMatch myOrderId theirOrderId amount env.now
      (sweepExpiredLocked seals env env.now b').byId with
  | error r => exact .sweep rfl
  | ok changed =>
    dsimp only
    rw [persist_snd]
    exact .sweepMatch rfl (.matchOrders hsame hplan)

/-- A call leaves the book as it is, or loads it and then has one of the effects. -/
theorem perform_cases (b : Book) (c : Call) :
    perform lib seals env b c = b ∨ ∃ b', ensureLoaded seals env b = some b' ∧
      Effect lib seals env c b' (perform lib seals env b c) := by
  cases c with
  | create params orderId => exact create_cases params orderId b
  | importOffer uri => exact importOffer_cases uri b
  | applyImportedUpdate uri => exact applyImportedUpdate_cases uri b
  | cancel orderId => exact mutate_cases fun _ _ => .cancel
  | matchOrders myOrderId theirOrderId amount =>
    exact matchOrders_cases myOrderId theirOrderId amount b
  | fill orderId => exact mutate_cases fun _ _ => .fill
  | linkSwap orderId swapId =>
    by_cases hnull : swapId = nullId
    · exact .inl (by simp [perform, linkSwap, hnull])
    · simp only [perform, linkSwap, if_neg hnull]
      exact mutate_cases fun _ _ => .linkSwap
  | fillFromLinkedSwap orderId consumedSat =>
    by_cases hpos : consumedSat ≤ 0
    · exact .inl (by simp [perform, fillFromLinkedSwap, hpos])
    · simp only [perform, fillFromLinkedSwap, if_neg hpos]
      exact mutate_cases fun _ _ => .linkedFill (Int64.not_le.mp hpos)
  | unmatch orderId => exact mutate_cases fun _ _ => .unmatch
  | sweepExpired now =>
    refine access_cases.imp_right ?_
    rintro ⟨b', hload, heq⟩
    refine ⟨b', hload, ?_⟩
    rw [perform, sweepExpired, heq]
    exact .sweep rfl
  | get orderId => exact look_cases rfl _ _
  | list => exact look_cases rfl _ _
  | findMatches myOrderId => exact look_cases rfl _ _
  | exportUri orderId =>
    have hsame : perform lib seals env b (.exportUri orderId) = (get seals env orderId b).2 := by
      simp only [perform, exportUri]
      split
      · next h => rw [h]
      · next h => rw [h]
    rw [hsame]
    exact look_cases rfl _ _
  | republishUri orderId =>
    refine access_cases.imp_right ?_
    rintro ⟨b', hload, heq⟩
    refine ⟨b', hload, ?_⟩
    rw [perform, republishUri, heq]
    exact .nothing

end Effects

section Runs

variable {ι : Type} (lib : OfferLibrary) (seals : Sealing ι)

/-- The orders that a call finds. -/
def Book.orders (b : Book) : Orders :=
  if b.loaded then b.byId else (loadFromDB seals b.rows).getD ∅

/-- Calls one after the other, each in its conditions. -/
def step (b : Book) (call : Conditions ι × Call) : Book := perform lib seals call.1 b call.2

variable {lib seals} {env : Conditions ι}

theorem ensureLoaded_some {b' : Book} (h : ensureLoaded seals env b = some b') :
    b'.loaded ∧ b'.rows = b.rows ∧ b'.byId = b.orders seals := by
  unfold ensureLoaded at h
  by_cases hloaded : b.loaded
  · rw [if_pos hloaded] at h
    cases h
    exact ⟨hloaded, rfl, by rw [Book.orders, if_pos hloaded]⟩
  · rw [if_neg hloaded] at h
    split at h
    · cases h
    · obtain ⟨orders, horders, rfl⟩ := map_eq_some_iff.mp h
      refine ⟨rfl, rfl, ?_⟩
      rw [Book.orders, if_neg hloaded, horders, getD_some]

theorem settle_cases (changed : List Order) (b : Book) :
    (settle seals env changed b).loaded = b.loaded ∧
      ((settle seals env changed b).byId = b.byId ∨
        (settle seals env changed b).byId = place b.byId changed) := by
  unfold settle persist
  rcases writeRows seals env 0 b.rows changed with ⟨_ | _, rows⟩
  · exact ⟨rfl, .inl rfl⟩
  · exact ⟨rfl, .inr rfl⟩

theorem loadFromDB_empty : loadFromDB seals ∅ = some ∅ := by
  have hempty : (∅ : Rows).toList = [] := by simp
  unfold loadFromDB
  rw [hempty, List.all_nil, if_pos rfl]
  exact congrArg some (ExtTreeMap.ext_getElem? fun _ => by simp [ExtTreeMap.getElem?_filterMap])

/-- Before the first call that loads it a book is empty, and from then on its orders are as they
should be. -/
def Holds (P : Orders → Prop) (b : Book) : Prop :=
  if b.loaded then P b.byId else b.rows = ∅ ∧ b.byId = ∅

variable {P : Orders → Prop} {b b' : Book}

theorem Holds.orders (hempty : P ∅) (h : Holds P b) : P (b.orders seals) := by
  unfold Holds at h
  unfold Book.orders
  by_cases hloaded : b.loaded
  · rw [if_pos hloaded] at h ⊢
    exact h
  · rw [if_neg hloaded] at h ⊢
    rw [h.1, loadFromDB_empty]
    exact hempty

theorem Holds.byId (hempty : P ∅) (h : Holds P b) : P b.byId := by
  unfold Holds at h
  by_cases hloaded : b.loaded
  · rwa [if_pos hloaded] at h
  · rw [if_neg hloaded] at h
    rw [h.2]
    exact hempty

section Steps

variable {call : Conditions ι × Call}
variable (hsweep : ∀ (orders : Orders) (now : Int64), P orders →
    P (orders.map fun _ o => expire now o))
  (hreplace : ∀ changed, Replaces lib call.1.now (b.orders seals) call.2 changed →
    P (place (b.orders seals) changed))
  (hmatch : ∀ (orders : Orders) (myOrderId theirOrderId : Uint256) (amount : Int64)
    (changed : List Order), P orders →
    Replaces lib call.1.now orders (.matchOrders myOrderId theirOrderId amount) changed →
    P (place orders changed))

theorem keeps_settle {changed : List Order} (hloaded : b.loaded) (hold : P b.byId)
    (hnew : P (place b.byId changed)) :
    (settle seals env changed b).loaded ∧ P (settle seals env changed b).byId := by
  obtain ⟨hkept, hbyId⟩ := @settle_cases ι seals env changed b
  refine ⟨hkept.trans hloaded, ?_⟩
  rcases hbyId with heq | heq
  · rw [heq]
    exact hold
  · rw [heq]
    exact hnew

include hsweep hreplace hmatch in
/-- What a sweep and the replacements of a call keep, the call keeps. -/
theorem keeps_perform (horders : P (b.orders seals)) :
    step lib seals b call = b ∨
      (step lib seals b call).loaded ∧ P (step lib seals b call).byId := by
  rw [step]
  rcases perform_cases b call.2 with hsame | ⟨b', hload, heffect⟩
  · exact .inl hsame
  · obtain ⟨hloaded, -, hbyId⟩ := ensureLoaded_some hload
    rw [← hbyId] at horders hreplace
    generalize perform lib seals call.1 b call.2 = after at heffect ⊢
    refine .inr ?_
    cases heffect with
    | nothing => exact ⟨hloaded, horders⟩
    | sweep => exact ⟨hloaded, hsweep _ _ horders⟩
    | replace hchange => exact keeps_settle hloaded horders (hreplace _ hchange)
    | sweepMatch hc hchange =>
      have hswept : P (sweepExpiredLocked seals call.1 call.1.now b').byId := hsweep _ _ horders
      rw [hc] at hchange
      exact keeps_settle hloaded hswept (hmatch _ _ _ _ _ hswept hchange)

include hsweep hreplace hmatch in
theorem Holds.step (hempty : P ∅) (h : Holds P b) : Holds P (step lib seals b call) := by
  rcases keeps_perform hsweep hreplace hmatch (h.orders hempty) with hsame | ⟨hloaded, hnew⟩
  · rwa [hsame]
  · rwa [Holds, if_pos hloaded]

end Steps

end Runs

end Pricoin.OrderBook
