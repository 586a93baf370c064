import Pricoin.CoinsKept
import Pricoin.WriteBackCaches

/-!
The coins caches over the coins database. Whatever is done with them, they show the coins of
plain views, and each passes its sanity check. A flush may stop anywhere: rolling the blocks
forward from there gives the coins it was to write, however often the replay stops as well.
-/
namespace Pricoin.CoinsCache

open Checks Runs Transactions Coins BlockConnection ConnectDisconnect Patches Rollforward Option
open List
open WriteBackCaches

section Model

/-- `Coin::IsSpent`. -/
def isSpent (c : Coin) : Bool := c.out.nValue = -1

def what : Fault → String
  | .overwritten => "Attempted to overwrite an unspent coin (when possible_overwrite is false)"
  | .misapplied => "FRESH flag misapplied to coin that exists in parent cache"

/-- The operations of `CCoinsViewCache`. Coins that can never be spent are not kept. -/
def coinStep (s : Stack OutPoint Coin) : Op OutPoint Coin → Except String (Stack OutPoint Coin)
  | .add o c possibleOverwrite =>
    if isSpent c then .error "Assertion failed: !coin.IsSpent()"
    else if isUnspendable c.out.scriptPubKey then .ok s
    else (step s (.add o c possibleOverwrite)).mapError what
  | op => (step s op).mapError what

def getCoin (s : Stack OutPoint Coin) (o : OutPoint) : Option Coin :=
  fetched s.table o (fetch s.table o s.caches)

/-- The assertions of `SanityCheck` on the entries and the linked list. -/
def SanityCheck (c : Cache OutPoint Coin) : Prop :=
  (∀ o e, c.entries o = some e →
    if e.value.isNone then e.dirty ∧ ¬ e.fresh else e.dirty ∨ ¬ e.fresh) ∧
  c.flagged.Nodup ∧ ∀ o, o ∈ c.flagged ↔ ∃ e, c.entries o = some e ∧ e.dirty

/-- The same operations on plain views of the coins. -/
def coinViewStep (vs : List CoinsView) : Op OutPoint Coin → Option (List CoinsView)
  | .add o c possibleOverwrite =>
    if isSpent c then none
    else match vs with
      | v :: w :: vs => (v.addCoin o c possibleOverwrite).map (· :: w :: vs)
      | vs => some vs
  | op => viewStep vs op

variable (crypto : Crypto)

/-- The loop of `ReplayBlocks` from an old tip below the new one. -/
def rollForward : List (Block × BlockIndex) → CoinsView → Option CoinsView
  | [], view => some view
  | b :: blocks, view => do
    let view ← rollforwardBlock crypto b.1 b.2 view
    rollForward blocks view

/-- The database after a flush that stopped at any point, and after replays that did. -/
inductive Interrupted (blocks : List (Block × BlockIndex)) (old new : CoinsView) :
    CoinsView → Prop where
  | flush {c : Cache OutPoint Coin} (n : ℕ) (hc : Valid old c) (hnew : look old c = new) :
      Interrupted blocks old new ((c.flagged.take n).foldl (writeTable c) old)
  | replay {db : CoinsView} {c : Cache OutPoint Coin} (n : ℕ)
      (h : Interrupted blocks old new db) (hc : Valid db c)
      (hreplayed : rollForward crypto blocks db = some (look db c)) :
      Interrupted blocks old new ((c.flagged.take n).foldl (writeTable c) db)

end Model

section Refinement

theorem sanityCheck_of_valid {below : CoinsView} {c : Cache OutPoint Coin} (hc : Valid below c) :
    SanityCheck c := by
  refine ⟨fun o e he => ?_, hc.nodup, hc.linked⟩
  have hfits := hc.fits o e he
  cases hvalue : e.value with
  | none => simpa using hfits.removed hvalue
  | some v =>
    cases hfresh : e.fresh with
    | false => simp
    | true => simp [(hfits.fresh hfresh).1]

theorem sanityCheck_of_allValid {table : CoinsView} {cs : List (Cache OutPoint Coin)}
    (h : AllValid table cs) : ∀ c ∈ cs, SanityCheck c := by
  induction cs with
  | nil => simp
  | cons c cs ih => exact forall_mem_cons.mpr ⟨sanityCheck_of_valid h.1, ih h.2⟩

/-- Where the views take a step, so do the caches, without an error. -/
theorem coinStep_refines (s : Stack OutPoint Coin) (op : Op OutPoint Coin) (vs : List CoinsView)
    (h : AllValid s.table s.caches) (hop : coinViewStep (views s.table s.caches) op = some vs) :
    ∃ s', coinStep s op = .ok s' ∧ AllValid s'.table s'.caches ∧
      views s'.table s'.caches = vs := by
  have hlift {op : Op OutPoint Coin} (hop : viewStep (views s.table s.caches) op = some vs) :
      ∃ s', (step s op).mapError what = .ok s' ∧ AllValid s'.table s'.caches ∧
        views s'.table s'.caches = vs := by
    simpa only [mapError_ok] using step_refines h hop
  cases op with
  | add o c possibleOverwrite =>
    simp only [coinViewStep, ite_none_left_eq_some] at hop
    obtain ⟨hspent, hop⟩ := hop
    rw [coinStep, if_neg hspent]
    cases hunspendable : isUnspendable c.out.scriptPubKey with
    | true =>
      refine ⟨s, if_pos rfl, h, some.inj (Eq.trans ?_ hop)⟩
      split
      next heq => rw [CoinsView.addCoin, if_pos hunspendable, heq, map_some]
      next => rfl
    | false =>
      rw [if_neg Bool.false_ne_true]
      refine hlift (Eq.trans ?_ hop)
      obtain ⟨table, caches⟩ := s
      cases caches with
      | nil => rfl
      | cons a cs =>
        cases hover : !possibleOverwrite && (view table (a :: cs) o).isSome <;>
          simp [views, lower, viewStep, CoinsView.addCoin, CoinsView.haveCoin, hunspendable, hover]
  | _ =>
    simp only [coinViewStep] at hop
    exact hlift hop

/-- Whatever is added, spent, read, written back and dropped, the caches over a database show
the coins of plain views, throw nothing and pass their sanity checks. -/
theorem caches_show_views (db : CoinsView) (ops : List (Op OutPoint Coin)) (vs : List CoinsView)
    (h : ops.foldlM coinViewStep [db] = some vs) :
    ∃ s, run coinStep ⟨db, []⟩ ops = .ok s ∧ views s.table s.caches = vs ∧
      (∀ v ∈ vs.head?, getCoin s = v) ∧ ∀ c ∈ s.caches, SanityCheck c := by
  obtain ⟨s, hrun, hvalid, rfl⟩ := run_refines
    (fun s : Stack OutPoint Coin => views s.table s.caches) coinStep_refines (s := ⟨db, []⟩)
    trivial h
  refine ⟨s, hrun, rfl, fun v hv => ?_, sanityCheck_of_allValid hvalid⟩
  obtain rfl := mem_some.mp hv
  exact funext fun o => (fetch_spec o hvalid).2.2

end Refinement

section Replay

variable {rules : Rules} {blocks : List (Block × BlockIndex)} {c c' : Connected} {db : CoinsView}

theorem rollforwardBlock_of_connected {block : Block} {pindex : BlockIndex}
    (h : connectBlock rules false block pindex c.tip c.store = .ok c')
    (hgenesis : pindex.hash ≠ rules.hashGenesisBlock) (hmarked : MarkersSpent block.vtx) :
    Patch.apply (Patch.last (replayPatches rules.crypto pindex.nHeight block.vtx)) c.tip.coins =
      c'.tip.coins := by
  rcases connectBlock_ok h with ⟨hhash, -⟩ | ⟨p, hconn⟩
  · exact absurd hhash hgenesis
  obtain rfl := hconn.result
  change _ = p.view
  rw [connectTxs_view hconn.loop]
  funext o
  unfold Patch.apply
  cases hlast : Patch.last (replayPatches rules.crypto pindex.nHeight block.vtx) o with
  | some v => rw [last_connectPatches_of_markersSpent hmarked hlast]
  | none => rw [last_replayPatches_none hlast]

/-- What rolling a block forward writes. -/
def blockPatch (crypto : Crypto) (b : Block × BlockIndex) : Patch OutPoint (Option Coin) :=
  Patch.last (replayPatches crypto b.2.nHeight b.1.vtx)

theorem rollForward_eq (crypto : Crypto) (view : CoinsView) :
    rollForward crypto blocks view =
      some ((Patch.last (blocks.map (blockPatch crypto))).apply view) := by
  rw [← Patch.applyAll_eq]
  induction blocks generalizing view with
  | nil => rfl
  | cons b blocks ih =>
    rw [rollForward, rollforwardBlock, rollforwardTxs_eq, bind_eq_bind, bind_some, ih]
    rfl

/-- The coins of connected blocks, rolled forward from any mixture of the coins before and
behind them. -/
theorem rollForward_of_mixed
    (h : run (fun c b => connectBlock rules false b.1 b.2 c.tip c.store) c blocks = .ok c')
    (hblocks : ∀ b ∈ blocks, b.2.hash ≠ rules.hashGenesisBlock ∧ MarkersSpent b.1.vtx)
    (hmixed : ∀ o, db o = c.tip.coins o ∨ db o = c'.tip.coins o) :
    rollForward rules.crypto blocks db = some c'.tip.coins := by
  have hend : (Patch.last (blocks.map (blockPatch rules.crypto))).apply c.tip.coins =
      c'.tip.coins := by
    clear hmixed
    rw [← Patch.applyAll_eq]
    induction blocks generalizing c with
    | nil =>
      rw [run, Except.ok.injEq] at h
      exact h ▸ rfl
    | cons b blocks ih =>
      rw [run, bind_ok] at h
      obtain ⟨d, hd, hrest⟩ := h
      obtain ⟨⟨hgenesis, hmarked⟩, hblocks⟩ := forall_mem_cons.mp hblocks
      rw [← ih hrest hblocks, ← rollforwardBlock_of_connected hd hgenesis hmarked]
      rfl
  rw [rollForward_eq, some.injEq]
  funext o
  have ho := congrFun hend o
  rw [Patch.apply] at ho ⊢
  rcases hmixed o with hold | hnew
  · rw [hold]
    exact ho
  · cases hlast : Patch.last (blocks.map (blockPatch rules.crypto)) o with
    | some v =>
      rw [hlast] at ho
      exact ho
    | none => exact hnew

/-- A flush that stops leaves each coin as it was or as it is to be. -/
theorem foldl_take_writeTable {c : Cache OutPoint Coin} (hc : Valid db c) (n : ℕ)
    (o : OutPoint) :
    (c.flagged.take n).foldl (writeTable c) db o = db o ∨
    (c.flagged.take n).foldl (writeTable c) db o = look db c o := by
  have hlinked : ∀ o ∈ c.flagged.take n, ∃ e, c.entries o = some e ∧ e.dirty = true :=
    fun o ho => (hc.linked o).mp (mem_of_mem_take ho)
  rw [foldl_writeTable db hlinked, written]
  split
  next ho =>
    obtain ⟨e, he, -⟩ := hlinked o ho
    rw [he, look_of_some he]
    exact .inr rfl
  next => exact .inl rfl

/-- However often the flush of connected blocks and the replays behind it are interrupted, the
next replay has the coins of the last block, if every coin that a ring transaction marks is spent
directly later in its block. -/
theorem rollForward_interrupted
    (h : run (fun c b => connectBlock rules false b.1 b.2 c.tip c.store) c blocks = .ok c')
    (hblocks : ∀ b ∈ blocks, b.2.hash ≠ rules.hashGenesisBlock ∧ MarkersSpent b.1.vtx)
    (hdb : Interrupted rules.crypto blocks c.tip.coins c'.tip.coins db) :
    rollForward rules.crypto blocks db = some c'.tip.coins := by
  refine rollForward_of_mixed h hblocks ?_
  induction hdb with
  | flush n hc hnew => exact hnew ▸ foldl_take_writeTable hc n
  | replay n hdb hc hreplayed ih =>
    intro o
    rw [rollForward_of_mixed h hblocks ih, some.injEq] at hreplayed
    rcases foldl_take_writeTable hc n o with hsame | hwritten
    · exact hsame ▸ ih o
    · exact .inr (hwritten.trans (congrFun hreplayed o).symm)

end Replay

section Sample

/-- A coin is spent and put back in a cache of its own, and written through to the database. -/
def sampleOps : List (Op OutPoint Coin) :=
  [.push, .spend samplePoint.outPoint, .push,
    .add samplePoint.outPoint (.transparent ⟨1, []⟩ 2 false) false, .flush, .pop, .sync]

theorem caches_show_views_sample : ∃ s vs,
    sampleOps.foldlM coinViewStep [sampleView] = some vs ∧
    run coinStep ⟨sampleView, []⟩ sampleOps = .ok s ∧ views s.table s.caches = vs ∧
    getCoin s samplePoint.outPoint = some (.transparent ⟨1, []⟩ 2 false) := by
  obtain ⟨s, hrun, hviews, hget, -⟩ := caches_show_views sampleView sampleOps _ rfl
  refine ⟨s, _, rfl, hrun, hviews, ?_⟩
  rw [hget _ rfl]
  exact Function.update_self ..

/-- The coin was marked by ring and spent directly, and the flush may stop anywhere. -/
theorem rollForward_interrupted_sample : ∃ c' cache,
    connectBlock sampleRules false sampleMarkedThenSpent sampleIndex
      ⟨sampleView, sampleHash 0⟩ ⟨TaggedSets.TaggedSet.empty, none, true⟩ = .ok c' ∧
    look sampleView cache = c'.tip.coins ∧ ∀ n,
      rollForward sampleCrypto [(sampleMarkedThenSpent, sampleIndex)]
        ((cache.flagged.take n).foldl (writeTable cache) sampleView) = some c'.tip.coins := by
  let start : Connected := ⟨⟨sampleView, sampleHash 0⟩, none, ⟨.empty, none, true⟩⟩
  obtain ⟨c', hc', -⟩ := succeeds_iff.mp (show succeeds (fun _ => True) (connectBlock sampleRules
    false sampleMarkedThenSpent sampleIndex start.tip start.store) = true by decide +kernel)
  have hgenesis : sampleIndex.hash ≠ sampleRules.hashGenesisBlock := by decide +kernel
  have hmarked : MarkersSpent sampleMarkedThenSpent.vtx :=
    ⟨by decide, fun _ o ho => ⟨sampleDirect samplePoint 2, mem_cons_self, ho⟩, by decide,
      trivial⟩
  have hkept : ∀ o ∉ sampleMarkedThenSpent.vtx.flatMap fun tx =>
      replayedPrevouts tx ++ CoinsKept.outpoints sampleRules.crypto tx,
      c'.tip.coins o = sampleView o := by
    intro o ho
    rw [← rollforwardBlock_of_connected hc' hgenesis hmarked, Patch.apply, Patch.last_eq_none.mpr]
    · rfl
    · simp only [replayPatches, List.forall_mem_map]
      intro tx htx
      obtain ⟨hspent, hcreated⟩ := not_or.mp fun h =>
        ho (List.mem_flatMap.mpr ⟨tx, htx, List.mem_append.mpr h⟩)
      simp only [txPatch, CoinsKept.createdCoins_eq_none hcreated]
      exact if_neg hspent
  obtain ⟨cache, hvalid, hlook⟩ := exists_valid _ hkept
  have hrun : run (fun c b => connectBlock sampleRules false b.1 b.2 c.tip c.store) start
      [(sampleMarkedThenSpent, sampleIndex)] = .ok c' := by
    rw [run, bind_ok]
    exact ⟨c', hc', rfl⟩
  exact ⟨c', cache, hc', hlook, fun n => rollForward_interrupted hrun
    (forall_mem_singleton.mpr ⟨hgenesis, hmarked⟩) (.flush n hvalid hlook)⟩

end Sample

end Pricoin.CoinsCache
