import ClobApi.Api.PostOrders
import ClobApi.Foundation.Mirror
import ClobApi.Guarantees.Priority

/-!
# Reference prices

Handlers pass the engine in one order and take the risk lock again in another.
A reference price stays the last-traded price as long as no handler overwrites
the last price with an older one.
-/

namespace ClobApi

open Foundation

/-! ## Last trades -/

def Fill.market (fill : Fill) : String := fill.marketId.value

def lastTrade (fills : List Fill) (marketId : String) : Option UInt64 :=
  lastValue Fill.market Fill.priceTicks fills marketId

theorem updateReferencePrices_get? (risk : RiskChecker) (fills : List Fill)
    (marketId : String) :
    (SharedState.updateReferencePrices risk fills).referencePrices.get?
        marketId =
      (lastTrade fills marketId).or (risk.referencePrices.get? marketId) := by
  unfold SharedState.updateReferencePrices
  induction fills generalizing risk with
  | nil => rfl
  | cons fill rest ih =>
      have hone : lastTrade [fill] marketId =
          if fill.market = marketId then some fill.priceTicks else none :=
        lastValue_singleton _ _
      have happend : lastTrade (fill :: rest) marketId =
          (lastTrade rest marketId).or (lastTrade [fill] marketId) :=
        lastValue_append [fill] rest marketId
      rw [List.foldl_cons, ih, happend, hone, Option.or_assoc]
      simp only [RiskChecker.updateReferencePrice, HashMap.get?_insert,
        Fill.market, eq_comm]
      split <;> rfl

theorem check_referencePrices {risk risk' : RiskChecker} {now : UInt64}
    {traderId marketId : String} {priceTicks sizeLots : UInt64}
    (h : risk.check now traderId marketId priceTicks sizeLots = .ok risk') :
    risk'.referencePrices = risk.referencePrices := by
  unfold RiskChecker.check at h
  split at h
  · cases h
  split at h
  · cases h
  · cases h
    rfl

/-! ## Fills on their way -/

/-- The fills that the handler has not written to the risk checker yet. -/
def OrderPhase.fills : OrderPhase → List Fill
  | .traded result => result.fills
  | _ => []

theorem afterCall_fills (result : OrderResult) :
    (Desk.afterCall (.ok result)).fills = result.fills := by
  simp only [Desk.afterCall]
  split
  · next hempty => exact (List.isEmpty_iff.mp hempty).symm
  · rfl

theorem processOrder_fills {crypto : Crypto} {e e' : Engine}
    {signed : SignedOrder} {env : CallEnv}
    {outcome : Outcome EngineError OrderResult}
    (h : e.processOrder crypto signed env = (e', outcome)) :
    fillsIn e'.log = fillsIn e.log ++ (Desk.afterCall outcome).fills := by
  by_cases hsubmits : Engine.Submits crypto e signed env
  · cases hbook : e.books.get? signed.marketId.value with
    | none =>
        rw [hsubmits.panics hbook] at h
        cases h
        exact afterAccept_writes.fillsIn
    | some book =>
        obtain ⟨e', hdone, hexecuted⟩ := hsubmits.completes hbook rfl rfl
        rw [hdone] at h
        cases h
        rw [hexecuted.writes.fillsIn, List.filterMap_cons,
          filterMap_fill_events, afterCall_fills]
        rfl
  · obtain ⟨hsame, -, hresult⟩ := Engine.processOrder_rejects hsubmits
    rw [h] at hsame hresult
    have hnone : (Desk.afterCall outcome).fills = [] := by
      cases outcome with
      | ok result =>
          obtain ⟨record, -, hduplicate⟩ := hresult result rfl
          rw [afterCall_fills, hduplicate]
          rfl
      | err error => rfl
      | panic => rfl
    have he : e' = e := hsame
    rw [hnone, he, List.append_nil]

namespace Desk

def unwritten (s : Desk) (i : Nat) : List Fill := (s.handlers i).fills

/-- The reference price of a market that has traded is its last price. -/
def ReferencesCurrent (s : Desk) : Prop :=
  ∀ marketId price,
    lastTrade (fillsIn s.state.engine.log) marketId = some price →
      s.state.risk.referencePrices.get? marketId = some price

/--
The handler is about to write the last prices of the markets it traded in, or
another one that has not written yet will write them.
-/
def UpdatesLast (s : Desk) (i : Nat) : Prop :=
  ∀ marketId price last,
    lastTrade (s.unwritten i) marketId = some price →
      lastTrade (fillsIn s.state.engine.log) marketId = some last →
        price = last ∨
          ∃ j, j ≠ i ∧ lastTrade (s.unwritten j) marketId = some last

theorem updatesLast_of_suffix {s : Desk} {i : Nat}
    (h : s.unwritten i <:+ fillsIn s.state.engine.log) : s.UpdatesLast i := by
  intro marketId price last hprice hlast
  obtain ⟨before, hlog⟩ := h
  have happend : lastTrade (before ++ s.unwritten i) marketId =
      (lastTrade (s.unwritten i) marketId).or (lastTrade before marketId) :=
    lastValue_append _ _ _
  rw [← hlog, happend, hprice, Option.some_or] at hlast
  exact .inl (Option.some.inj hlast)

/-! ## Mirroring the log -/

def mirror (s : Desk) : Mirror Nat String Fill UInt64 where
  log := fillsIn s.state.engine.log
  held := s.unwritten
  shown := s.state.risk.referencePrices.get?

section Steps

variable {crypto : Crypto} {s s' : Desk} {i : Nat} {action : DeskAction}

theorem unwritten_move (s : Desk) (i : Nat) (phase : OrderPhase) :
    (s.move i phase).unwritten =
      Function.update s.unwritten i phase.fills := by
  funext j
  unfold unwritten move
  rw [Function.apply_update (fun _ => OrderPhase.fills)]

theorem mirror_append {engine : Engine} {risk : RiskChecker}
    {phase : OrderPhase}
    (hlog : fillsIn engine.log = fillsIn s.state.engine.log ++ phase.fills)
    (hrisk : risk.referencePrices = s.state.risk.referencePrices) :
    (((s.withEngine engine).withRisk risk).move i phase).mirror =
      s.mirror.append i phase.fills := by
  unfold mirror Mirror.append
  rw [unwritten_move]
  simp only [move, withEngine, withRisk, hlog, hrisk]
  rfl

theorem mirror_write :
    ((s.withRisk (SharedState.updateReferencePrices s.state.risk
      (s.unwritten i))).move i .finished).mirror =
      s.mirror.write Fill.market Fill.priceTicks i := by
  unfold mirror Mirror.write
  rw [unwritten_move]
  have hshown : (SharedState.updateReferencePrices s.state.risk
      (s.unwritten i)).referencePrices.get? = fun marketId =>
        (lastTrade (s.unwritten i) marketId).or
          (s.state.risk.referencePrices.get? marketId) :=
    funext fun marketId => updateReferencePrices_get? _ _ _
  simp only [move, withRisk, hshown]
  rfl

theorem mirror_step (h : s.Step crypto (i, action) s') :
    action = .update ∧
        s'.mirror = s.mirror.write Fill.market Fill.priceTicks i ∨
      action ≠ .update ∧ (s'.mirror = s.mirror ∨
        s.mirror.held i = [] ∧
          ∃ batch, s'.mirror = s.mirror.append i batch) := by
  obtain ⟨hadmits, hstep⟩ := h
  cases step_move hstep with
  | refuse phase =>
      exact .inr ⟨nofun, .inr ⟨congrArg OrderPhase.fills phase, _,
        mirror_append (List.append_nil _).symm rfl⟩⟩
  | check phase passed =>
      exact .inr ⟨nofun, .inr ⟨congrArg OrderPhase.fills phase, _,
        mirror_append (List.append_nil _).symm
          (check_referencePrices passed)⟩⟩
  | submit phase called =>
      exact .inr ⟨nofun, .inr ⟨congrArg OrderPhase.fills phase, _,
        mirror_append (processOrder_fills called) rfl⟩⟩
  | update phase =>
      refine .inl ⟨rfl, ?_⟩
      have hheld : s.unwritten i = _ := congrArg OrderPhase.fills phase
      rw [← mirror_write, hheld]
      rfl
  | @operate op other =>
      refine .inr ⟨nofun, .inl ?_⟩
      have hlog : fillsIn (s.state.engine.apply crypto op).1.log =
          fillsIn s.state.engine.log := by
        rw [fillsIn_apply hadmits]
        cases op with
        | processOrder signed env => cases other
        | _ => exact List.append_nil _
      unfold mirror
      simp only [withEngine, hlog]
      rfl

end Steps

/-! ## Runs -/

/-- A step at which no last price is overwritten for good. -/
def OrderedStep (crypto : Crypto) (s : Desk) (label : Nat × DeskAction)
    (s' : Desk) : Prop :=
  s.Step crypto label s' ∧ (label.2 = .update → s.UpdatesLast label.1)

section Runs

variable {crypto : Crypto} {s s' : Desk} {labels : List (Nat × DeskAction)}

theorem OrderedStep.tracks {label : Nat × DeskAction}
    (h : s.OrderedStep crypto label s')
    (htracks : s.mirror.Tracks Fill.market Fill.priceTicks) :
    s'.mirror.Tracks Fill.market Fill.priceTicks := by
  obtain ⟨hupdate, hwrite⟩ | ⟨-, hsame | ⟨hfree, batch, happend⟩⟩ :=
    mirror_step h.1
  · rw [hwrite]
    exact htracks.write_iff.mpr (h.2 hupdate)
  · rwa [hsame]
  · rw [happend]
    exact htracks.append hfree batch

theorem OrderedStep.run_tracks (h : Run (OrderedStep crypto) s labels s')
    (htracks : s.mirror.Tracks Fill.market Fill.priceTicks) :
    s'.mirror.Tracks Fill.market Fill.priceTicks := by
  induction h with
  | start => exact htracks
  | next _ hstep ih => exact hstep.tracks ih

theorem ReferencesCurrent.tracks (h : s.ReferencesCurrent) :
    s.mirror.Tracks Fill.market Fill.priceTicks :=
  fun marketId price hlast => .inl (h marketId price hlast)

theorem Settled.referencesCurrent (h : s.Settled)
    (htracks : s.mirror.Tracks Fill.market Fill.priceTicks) :
    s.ReferencesCurrent := by
  intro marketId price hlast
  rcases htracks marketId price hlast with hshown | ⟨i, hheld⟩
  · exact hshown
  · have hnone : s.unwritten i = [] := by
      unfold unwritten
      have hdone := h i
      cases hphase : s.handlers i with
      | traded result =>
          rw [hphase] at hdone
          cases hdone
      | _ => rfl
    have hheld' : lastTrade (s.unwritten i) marketId = some price := hheld
    rw [hnone] at hheld'
    cases hheld'

theorem not_referencesCurrent
    (h : s.mirror.Lost Fill.market Fill.priceTicks) :
    ¬ s.ReferencesCurrent := by
  obtain ⟨marketId, price, hlast, hshown, -⟩ := h
  exact fun hcurrent => hshown (hcurrent marketId price hlast)

/-- What is lost stays lost until the next fill. -/
theorem Step.run_lost (h : Run (Step crypto) s labels s')
    (hlost : s.mirror.Lost Fill.market Fill.priceTicks) :
    ∃ later, fillsIn s'.state.engine.log =
        fillsIn s.state.engine.log ++ later ∧
      (later = [] → s'.mirror.Lost Fill.market Fill.priceTicks) := by
  induction h with
  | start => exact ⟨[], (List.append_nil _).symm, fun _ => hlost⟩
  | @next _ t label t' _ hstep ih =>
      obtain ⟨later, hlog, hstill⟩ := ih
      obtain ⟨-, hwrite⟩ | ⟨-, hsame | ⟨hfree, batch, happend⟩⟩ :=
        mirror_step hstep
      · have hlog' : fillsIn t'.state.engine.log = _ :=
          congrArg Mirror.log hwrite
        refine ⟨later, hlog'.trans hlog, fun hnone => ?_⟩
        rw [hwrite]
        exact (hstill hnone).write label.1
      · have hlog' : fillsIn t'.state.engine.log = _ :=
          congrArg Mirror.log hsame
        refine ⟨later, hlog'.trans hlog, fun hnone => ?_⟩
        rw [hsame]
        exact hstill hnone
      · have hlog' : fillsIn t'.state.engine.log =
            fillsIn t.state.engine.log ++ batch := congrArg Mirror.log happend
        refine ⟨later ++ batch, ?_, fun hnone => ?_⟩
        · rw [hlog', hlog, List.append_assoc]
        · obtain ⟨hlater, rfl⟩ := List.append_eq_nil_iff.mp hnone
          rw [happend, Mirror.append_nil hfree]
          exact hstill hlater

/--
As long as no last price is overwritten for good, the reference prices are
current whenever no handler is about to update them.  Once one is, they are
wrong until the next fill.
-/
theorem referencePrices_lastTraded {e : Engine} {risk : RiskChecker}
    (hstart : (start e risk).ReferencesCurrent)
    (h : Run (OrderedStep crypto) (start e risk) labels s) :
    (s.Settled → s.ReferencesCurrent) ∧
      ∀ i s', s.Step crypto (i, .update) s' → ¬ s.UpdatesLast i →
        ∀ labels' s'', Run (Step crypto) s' labels' s'' →
          fillsIn s''.state.engine.log = fillsIn s'.state.engine.log →
            ¬ s''.ReferencesCurrent := by
  have htracks : s.mirror.Tracks Fill.market Fill.priceTicks :=
    OrderedStep.run_tracks h hstart.tracks
  refine ⟨fun hsettled => hsettled.referencesCurrent htracks, ?_⟩
  intro i s' hstep hviolates labels' s'' hlater hquiet
  have hlost : s'.mirror.Lost Fill.market Fill.priceTicks := by
    obtain ⟨-, hwrite⟩ | ⟨hother, -⟩ := mirror_step hstep
    · rw [hwrite]
      exact Mirror.lost_of_not_tracks fun hafter =>
        hviolates (htracks.write_iff.mp hafter)
    · exact absurd rfl hother
  obtain ⟨later, hlog, hstill⟩ := Step.run_lost hlater hlost
  rw [hquiet] at hlog
  exact not_referencesCurrent (hstill (List.self_eq_append_right.mp hlog))

end Runs

end Desk

/-! ## Two trades that overtake each other -/

namespace Sample

def dipHash : Bytes32 :=
  #v[236, 212, 198, 121, 240, 156, 181, 46, 134, 60, 107, 139, 45, 0, 132, 147,
    210, 80, 100, 33, 113, 71, 241, 95, 192, 67, 222, 114, 205, 251, 37, 67]

def dip : SignedOrder where
  schemaVersion := 1
  clientOrderId := "dip-1"
  marketId := ⟨"BTC-USD"⟩
  traderId := bid.traderId
  side := .sell
  priceTicks := 95
  sizeLots := 3
  timeInForce := .gtc
  nonce := 2
  expiryTsMs := 0
  createdAtMs := 1000
  salt := 12
  traderPubkey := bidPubkey
  signature :=
    #v[135, 23, 0, 140, 87, 5, 121, 55, 89, 84, 76, 50, 181, 144, 255, 132, 133,
      201, 124, 19, 186, 160, 23, 21, 161, 65, 224, 11, 103, 47, 242, 153, 36,
      132, 121, 103, 3, 144, 171, 102, 24, 119, 103, 217, 10, 9, 229, 251, 139,
      100, 170, 114, 177, 108, 26, 98, 119, 16, 82, 117, 234, 73, 75, 10]

def dipCrypto : Crypto where
  sha256 := fun bytes =>
    if bytes = dip.canonicalBytes then dipHash else crypto.sha256 bytes
  validPublicKey := crypto.validPublicKey
  verify := fun key message signature =>
    (key, message, signature) = (bidPubkey, dipHash, dip.signature) ∨
      crypto.verify key message signature

def tenAMinute : RiskConfig := ⟨10, 60000, .empty⟩

def post (i : Nat) (signed : SignedOrder) (orderId : String) :
    List (Nat × DeskAction) :=
  [(i, .check ⟨signed, 2000, ⟨2000, ⟨orderId⟩, wall⟩⟩), (i, .submit)]

/-- One order rests on each side and one order trades with each of them. -/
def trades : List (Nat × DeskAction) :=
  post 0 ask "ask" ++ post 1 ownBid "own" ++ post 2 bid "bid" ++
    post 3 dip "dip"

/-- The handler that traded first writes its price last. -/
def overtaken : List (Nat × DeskAction) :=
  trades ++ [(3, .update), (2, .update)]

def alone : List (Nat × DeskAction) :=
  post 0 ask "ask" ++ post 1 bid "bid" ++ [(1, .update)]

def openDesk : Desk := .start (after [.addMarket market]) (.new tenAMinute)

theorem openDesk_current : openDesk.ReferencesCurrent := nofun

/-- Nobody has traded but the handler that is about to write. -/
def tradesAlone (s : Desk) (label : Nat × DeskAction) : Bool :=
  match label.2 with
  | .update => fillsIn s.state.engine.log == s.unwritten label.1
  | _ => true

theorem referencePrices_lastTraded_bid :
    ∃ s labels, Run (Desk.OrderedStep crypto) openDesk labels s ∧
      s.ReferencesCurrent ∧
      lastTrade (fillsIn s.state.engine.log) "BTC-USD" = some 100 := by
  have hfields : (openDesk.runAll crypto tradesAlone alone).map (fun s =>
      (lastTrade (fillsIn s.state.engine.log) "BTC-USD",
        alone.all fun label => (s.handlers label.1).isTraded = false)) =
      some (some 100, true) := by
    decide +kernel
  obtain ⟨s, hs, hfields⟩ := Option.map_eq_some_iff.mp hfields
  simp only [Prod.mk.injEq, List.all_eq_true, decide_eq_true_eq] at hfields
  have hrun := Desk.runAll_run hs
  have hordered : Run (Desk.OrderedStep crypto) openDesk alone s := by
    refine hrun.mono fun s label s' hstep => ⟨hstep.1, fun hupdate => ?_⟩
    have halone := hstep.2
    simp only [tradesAlone, hupdate, beq_iff_eq] at halone
    exact Desk.updatesLast_of_suffix (halone ▸ List.suffix_rfl)
  have hsettled : s.Settled :=
    Desk.Step.run_settled (hrun.mono fun _ _ _ hstep => hstep.1) hfields.2
  exact ⟨s, alone, hordered,
    (Desk.referencePrices_lastTraded openDesk_current hordered).1 hsettled,
    hfields.1⟩

theorem race_leaves_stale_price :
    ¬ ∀ (crypto : Crypto) (e : Engine) (risk : RiskChecker)
      (labels : List (Nat × DeskAction)) (s : Desk),
      (Desk.start e risk).ReferencesCurrent →
      Run (Desk.Step crypto) (.start e risk) labels s → s.Settled →
        s.ReferencesCurrent := by
  intro h
  have hrace : (openDesk.runAll dipCrypto (fun _ _ => true) overtaken).map
      (fun s => (s.state.risk.referencePrices.get? "BTC-USD",
        lastTrade (fillsIn s.state.engine.log) "BTC-USD",
        overtaken.all fun label => (s.handlers label.1).isTraded = false)) =
      some (some 100, some 95, true) := by
    decide +kernel
  obtain ⟨s, hs, hfields⟩ := Option.map_eq_some_iff.mp hrace
  simp only [Prod.mk.injEq, List.all_eq_true, decide_eq_true_eq] at hfields
  obtain ⟨hreference, hlast, hdone⟩ := hfields
  have hrun := (Desk.runAll_run hs).mono fun _ _ _ hstep => hstep.1
  have hcurrent := h _ _ _ _ s openDesk_current hrun
    (Desk.Step.run_settled hrun hdone) "BTC-USD" 95 hlast
  rw [hreference] at hcurrent
  exact absurd hcurrent (by decide)

end Sample

end ClobApi
