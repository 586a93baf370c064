import Pricoin.SwapSafety

/-!
Swap records at their end. Two setters do not look at the state: the one that notes
Bob's secret and the one that notes the claim ring. Unless they are called for a record
that is finished, or the first for a record of Bob's that has given its secret up,
finished records stay as they are and a secret that was wiped does not come back.
-/
namespace Pricoin.TerminalSwaps

open ByteStreams KeyImageFile DurableRecords AdaptorSwaps SwapHistories Runs Option Function
open SwapSafety (sampleId sampleDecode sampleSecret sampleCall samplePath)

variable {ι : Type} {table table' : Table} {swapId : Uint256} {s : AdaptorSwap}

section Statement

variable (decodeTx : Text → Option Uint256) (seals : Sealing ι)

/-- Nothing is noted in a finished record, and no secret in one of Bob's after his claim. -/
def Undisturbed (c : Wallet) : Event ι → Prop
  | .call _ swapId (.setTSecret _) => ∀ s, found decodeTx seals c swapId = some s →
    s.state.terminal = false ∧ ¬ (s.role = .bob ∧ s.state = .pricClaimed)
  | .call _ swapId (.setPricClaimRing ..) => ∀ s, found decodeTx seals c swapId = some s →
    s.state.terminal = false
  | _ => True

/-- The setters that wipe the secret. -/
def Wipes : Transition → Prop
  | .setPricClaimed _ => True
  | .abort _ => True
  | _ => False

end Statement

section Records

variable {decodeTx : Text → Option Uint256} {t : Transition} {s s' : AdaptorSwap}

/-- A finished record is changed by no other setter. -/
theorem Move.of_terminal (h : Move decodeTx s t s') (hs : s.state.terminal = true) :
    (∃ secret, t = .setTSecret secret) ∨
      ∃ ring ringW msgHex pi hex, t = .setPricClaimRing ring ringW msgHex pi hex := by
  cases h with
  | @sameSecret secret => exact .inl ⟨secret, rfl⟩
  | @newSecret secret => exact .inl ⟨secret, rfl⟩
  | @claimRing ring ringW _ msgHex _ pi _ hex => exact .inr ⟨ring, ringW, msgHex, pi, hex, rfl⟩
  | adaptorMaterials hstate => simp [hstate, State.terminal] at hs
  | refundTimelocks hstate => simp [hstate, State.terminal] at hs
  | btcFunded _ _ _ hstate => rcases hstate with hs' | hs' <;> simp [hs', State.terminal] at hs
  | pricFunded _ _ _ hstate => simp [hstate, State.terminal] at hs
  | preSigned hstate => simp [hstate, State.terminal] at hs
  | pricClaimed _ hstate => simp [hstate, State.terminal] at hs
  | pricFundingPlanned _ _ hstate =>
    rcases hstate with hs' | hs' | hs' | hs' <;> simp [hs', State.terminal] at hs
  | btcFundingPlanned _ hstate =>
    rcases hstate with hs' | hs' | hs' <;> simp [hs', State.terminal] at hs
  | complete _ hstate => simp [hstate, State.terminal] at hs
  | refunded hstate => rcases hstate with hs' | hs' | hs' <;> simp [hs', State.terminal] at hs
  | ephemeralR hlive => simp [hlive] at hs
  | pricRefundTx hlive => simp [hlive] at hs
  | coopsignSession hlive => simp [hlive] at hs
  | btcRefundTx hlive => simp [hlive] at hs
  | btcClaimTx hlive => simp [hlive] at hs
  | peerStealthPubkeys hlive => simp [hlive] at hs
  | abort hlive => simp [hlive] at hs

/-- A record of Bob's without the secret, after his claim or at its end. -/
structure Wiped (s : AdaptorSwap) : Prop where
  role : s.role = .bob
  hasT : s.hasT = false
  state : s.state = .pricClaimed ∨ s.state.terminal = true

theorem Move.wiped (h : Move decodeTx s t s') (ht : ∀ secret, t ≠ .setTSecret secret)
    (hs : Wiped s) : Wiped s' := by
  have hnot : ∀ state, state ≠ .pricClaimed → state.terminal = false → s.state ≠ state := by
    rintro state hclaimed hlive rfl
    rcases hs.state with hstate | hstate
    · exact hclaimed hstate
    · rw [hlive] at hstate
      cases hstate
  cases h with
  | sameSecret => exact absurd rfl (ht _)
  | newSecret => exact absurd rfl (ht _)
  | adaptorMaterials hstate => exact absurd hstate (hnot _ (by decide) (by decide))
  | refundTimelocks hstate => exact absurd hstate (hnot _ (by decide) (by decide))
  | btcFunded _ _ _ hstate =>
    rcases hstate with hs' | hs' <;> exact absurd hs' (hnot _ (by decide) (by decide))
  | pricFunded _ _ _ hstate => exact absurd hstate (hnot _ (by decide) (by decide))
  | preSigned hstate => exact absurd hstate (hnot _ (by decide) (by decide))
  | pricClaimed _ hstate => exact absurd hstate (hnot _ (by decide) (by decide))
  | pricFundingPlanned _ _ hstate =>
    rcases hstate with hs' | hs' | hs' | hs' <;>
      exact absurd hs' (hnot _ (by decide) (by decide))
  | complete => exact ⟨hs.role, hs.hasT, .inr rfl⟩
  | refunded => exact ⟨hs.role, hs.hasT, .inr rfl⟩
  | abort _ hm =>
    subst hm
    split
    · exact ⟨hs.role, rfl, .inr rfl⟩
    · exact ⟨hs.role, hs.hasT, .inr rfl⟩
  | coopsignSession => split <;> exact ⟨hs.role, hs.hasT, hs.state⟩
  | _ => exact ⟨hs.role, hs.hasT, hs.state⟩

/-- The secret is gone after a setter that wipes it. -/
theorem Move.wipes (h : Move decodeTx s t s') (ht : Wipes t) (hrole : s'.role = .bob) :
    Wiped s' := by
  cases h with
  | pricClaimed _ _ hm =>
    subst hm
    split
    · rename_i hbob
      exact ⟨hbob, rfl, .inl rfl⟩
    · rename_i hnot
      rw [if_neg hnot] at hrole
      exact absurd hrole hnot
  | abort _ hm =>
    subst hm
    split
    · rename_i hhas
      rw [if_pos hhas] at hrole
      exact ⟨hrole, rfl, .inr rfl⟩
    · rename_i hhas
      rw [if_neg hhas] at hrole
      exact ⟨hrole, by simpa using hhas, .inr rfl⟩
  | _ => exact absurd ht id

end Records

section Runs

variable {decodeTx : Text → Option Uint256} {seals : Sealing ι}

/-- A finished record stays. -/
theorem frozen_step {c : Wallet} {event : Event ι} {reply : Reply} (hs : s.state.terminal = true)
    (hevent : Undisturbed decodeTx seals c event)
    (heffect : Effect decodeTx (found decodeTx seals c) table event reply table')
    (htable : HoldsAt swapId (fun s' => s' = s) table) :
    HoldsAt swapId (fun s' => s' = s) table' := by
  refine heffect.holdsAt ?_ htable
  rintro env t s' m rfl hview haccepts rfl
  rcases Move.of_terminal haccepts.move hs with
    ⟨secret, rfl⟩ | ⟨ring, ringW, msgHex, pi, hex, rfl⟩
  · exact absurd ((hevent s' hview).1.symm.trans hs) nofun
  · exact absurd ((hevent s' hview).symm.trans hs) nofun

theorem wiped_step {c : Wallet} {event : Event ι} {reply : Reply}
    (hevent : Undisturbed decodeTx seals c event)
    (heffect : Effect decodeTx (found decodeTx seals c) table event reply table')
    (htable : HoldsAt swapId Wiped table) : HoldsAt swapId Wiped table' := by
  refine heffect.holdsAt ?_ htable
  rintro env t s m rfl hview haccepts hwiped
  have hsecret : ∀ secret, t ≠ .setTSecret secret := by
    rintro secret rfl
    obtain ⟨hlive, hclaimed⟩ := hevent s hview
    rcases hwiped.state with hstate | hstate
    · exact hclaimed ⟨hwiped.role, hstate⟩
    · exact absurd (hlive.symm.trans hstate) nofun
  have hm := Move.wiped haccepts.move hsecret hwiped
  exact ⟨hm.role, hm.hasT, hm.state⟩

theorem wiped_of_reply {env : Env ι} {t : Transition} {view : Table} (ht : Wipes t)
    (heffect : Effect decodeTx view table (.call env swapId t) (.call (some .ok)) table')
    (hs : table' swapId = some s) (hrole : s.role = .bob) : HoldsAt swapId Wiped table' := by
  cases heffect with
  | kept hreply => exact absurd trivial hreply
  | moved _ _ haccepts =>
    rw [update_self, some.injEq] at hs
    have hm := Move.wipes haccepts.move ht (by rw [← hs] at hrole; exact hrole)
    exact ⟨_, update_self .., hm.role, hm.hasT, hm.state⟩

/-- No call takes Bob's role from a record or gives it to one. -/
theorem role_of_later {s' : AdaptorSwap} (h : Later decodeTx s s') : s'.role = s.role := by
  induction h with
  | refl => rfl
  | tail _ hstep ih =>
    obtain ⟨t, m, nowSec, haccepts, rfl⟩ := hstep
    exact haccepts.move.sameSwap.role.trans ih

/-- Finished records stay as they are and wiped secrets do not come back, in a run in which the
two setters that do not look at the state are not called where it matters. -/
theorem frozen_of_undisturbed (decodeTx : Text → Option Uint256) (seals : Sealing ι)
    (events : List (Event ι))
    (hevents : Always (step decodeTx seals) (Undisturbed decodeTx seals) emptyWallet
      events) :
    (∀ pre post swapId s s', events = pre ++ post →
      found decodeTx seals (run decodeTx seals pre) swapId = some s →
      s.state.terminal = true →
      found decodeTx seals (run decodeTx seals events) swapId = some s' → s' = s) ∧
    ∀ pre post env swapId t s', events = pre ++ .call env swapId t :: post → Wipes t →
      reply decodeTx seals (run decodeTx seals pre) (.call env swapId t) =
        .call (some .ok) →
      found decodeTx seals (run decodeTx seals events) swapId = some s' →
      s'.role = .bob → s'.hasT = false := by
  constructor
  · rintro pre post swapId s s' rfl hs hterminal hs'
    obtain ⟨table, htable⟩ := keepsTo_run decodeTx seals pre
    obtain ⟨table', htable', last, hlast, rfl⟩ := keepsTo_always
      (HoldsAt swapId fun s' => s' = s)
      (fun _ _ _ _ _ hevent heffect => frozen_step hterminal hevent heffect)
      (Always.append.mp hevents).2 htable ⟨s, htable.table_of_found hs, rfl⟩
    rw [AdaptorSwaps.run, List.foldl_append] at hs'
    exact some.inj ((htable'.table_of_found hs').symm.trans hlast)
  · rintro pre post env swapId t s' rfl ht hreply hs' hrole
    obtain ⟨table, htable⟩ := keepsTo_run decodeTx seals pre
    obtain ⟨mid, heffect, hmid⟩ := keepsTo_step htable (.call env swapId t)
    obtain ⟨table', htable', hfollows⟩ := keepsTo_foldl post hmid
    rw [AdaptorSwaps.run, List.foldl_append, List.foldl_cons] at hs'
    rw [hreply] at heffect
    -- the record is there after the setter, with the role that it still has in the end
    obtain ⟨m, hm⟩ : ∃ m, mid swapId = some m := by
      cases heffect with
      | kept hnot => exact absurd trivial hnot
      | moved => exact ⟨_, update_self ..⟩
    obtain ⟨s'', hs'', hlater⟩ := hfollows swapId m hm
    obtain rfl := some.inj (hs''.symm.trans (htable'.table_of_found hs'))
    have hwiped := wiped_of_reply ht heffect hm ((role_of_later hlater).symm.trans hrole)
    obtain ⟨last, hlast, s, hs, hsWiped⟩ := keepsTo_always (HoldsAt swapId Wiped)
      (fun _ _ _ _ _ hevent heffect => wiped_step hevent heffect)
      (Always.append.mp hevents).2.2 hmid hwiped
    obtain rfl := some.inj (hs.symm.trans (hlast.table_of_found hs'))
    exact hsWiped.hasT

end Runs

section Sample

/-- Bob's record up to his claim. -/
def claimedPath : List (Event Unit) :=
  samplePath .bob ltc (some sampleSecret) ++
    [sampleCall (.setPricClaimed (.replicate 32 4))]

/-- The secret is stored again after the claim, and changes the record after the end. -/
theorem secret_stored_again :
    (found sampleDecode plainSealing (run sampleDecode plainSealing claimedPath) sampleId).map
        (fun s => (s.role, s.hasT)) = some (.bob, false) ∧
    (found sampleDecode plainSealing (run sampleDecode plainSealing
        (claimedPath ++ [sampleCall (.setTSecret sampleSecret)])) sampleId).map
        (fun s => (s.hasT, s.tSecret)) = some (true, sampleSecret) ∧
    (found sampleDecode plainSealing (run sampleDecode plainSealing
        (claimedPath ++ [sampleCall (.setComplete [1])])) sampleId).map
        (fun s => (s.state, s.hasT)) = some (.complete, false) ∧
    (found sampleDecode plainSealing (run sampleDecode plainSealing
        (claimedPath ++ [sampleCall (.setComplete [1])] ++
          [sampleCall (.setTSecret sampleSecret)])) sampleId).map
        (fun s => (s.state, s.hasT)) = some (.complete, true) := by
  refine ⟨?_, ?_, ?_, ?_⟩ <;> decide +kernel

/-- Bob's record after the end, with calls that are refused. -/
def finishedPath : List (Event Unit) :=
  claimedPath ++ [sampleCall (.setComplete [1]), sampleCall (.abort []), .restart]

theorem frozen_of_undisturbed_finished :
    ∃ s, found sampleDecode plainSealing (run sampleDecode plainSealing finishedPath) sampleId =
      some s ∧ s.role = .bob ∧ s.hasT = false := by
  have hevents : Always (step sampleDecode plainSealing) (Undisturbed sampleDecode plainSealing)
      emptyWallet finishedPath :=
    ⟨trivial, trivial, trivial, trivial, trivial, trivial, trivial, trivial, trivial, trivial,
      trivial⟩
  have hreply : reply sampleDecode plainSealing (run sampleDecode plainSealing
      (samplePath .bob ltc (some sampleSecret)))
      (sampleCall (.setPricClaimed (.replicate 32 4))) = .call (some .ok) := by
    have hresult : (call sampleDecode plainSealing SwapSafety.sampleEnv sampleId
        (.setPricClaimed (.replicate 32 4)) (run sampleDecode plainSealing
          (samplePath .bob ltc (some sampleSecret)))).1 = some .ok := by
      decide +kernel
    exact congrArg Reply.call hresult
  have hbob : (found sampleDecode plainSealing (run sampleDecode plainSealing finishedPath)
      sampleId).map AdaptorSwap.role = some .bob := by
    decide +kernel
  obtain ⟨s, hs, hrole⟩ := map_eq_some_iff.mp hbob
  exact ⟨s, hs, hrole, (frozen_of_undisturbed sampleDecode plainSealing finishedPath hevents).2
    (samplePath .bob ltc (some sampleSecret)) _ _ _ _ s rfl trivial hreply hs hrole⟩

end Sample

end Pricoin.TerminalSwaps
