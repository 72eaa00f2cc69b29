import ClobApi.Engine.Timeless
import ClobApi.Foundation.Stutter
import ClobApi.Guarantees.Provenance
import ClobApi.Guarantees.Recovery

/-!
# Clocks and restarts

Two runs that are asked the same write the same log up to its times, whatever
their clocks read and wherever they recover.
-/

namespace ClobApi

open Foundation

/-! ## What is asked -/

/-- An operation without its clocks; intake has judged the expiry. -/
inductive Ask where
  | addMarket (config : MarketConfig)
  | submit (signed : SignedOrder) (newOrderId : OrderId) (unexpired : Bool)
  | cancel (orderId : OrderId) (traderId : String)
  | pauseMarket (marketId triggeredBy : String)
  | resumeMarket (marketId triggeredBy : String)
  | cancelAllOrders (marketId : String)
  deriving DecidableEq

/-- Recovery asks for nothing. -/
def Op.ask : Op → Option Ask
  | .addMarket config => some (.addMarket config)
  | .processOrder signed env =>
      some (.submit signed env.newOrderId (signed.Unexpired env.nowMs))
  | .processCancel orderId traderId _ => some (.cancel orderId traderId)
  | .pauseMarket marketId triggeredBy _ =>
      some (.pauseMarket marketId triggeredBy)
  | .resumeMarket marketId triggeredBy _ =>
      some (.resumeMarket marketId triggeredBy)
  | .cancelAllOrders marketId _ => some (.cancelAllOrders marketId)
  | .restoreFromEvents .. => none

def SettledStep (crypto : Crypto) (e : Engine) (op : Op) (e' : Engine) : Prop :=
  CompletedStep crypto e op e' ∧ op.isTrading = true

def Settled (crypto : Crypto) (e : Engine) : Prop :=
  ∃ ops, Run (SettledStep crypto) .new ops e

section Settled

variable {crypto : Crypto} {e e' : Engine} {op : Op}

theorem Settled.next (h : Settled crypto e)
    (hstep : SettledStep crypto e op e') : Settled crypto e' :=
  h.elim fun _ hrun => ⟨_, hrun.next hstep⟩

theorem Settled.run (h : Settled crypto e) :
    ∃ ops, Run (Step crypto) .new ops e :=
  h.imp fun _ hrun => hrun.mono fun _ _ _ hstep => hstep.1.1

theorem Settled.inv (h : Settled crypto e) : e.Inv True True noOrder := by
  obtain ⟨ops, hrun⟩ := h
  refine hrun.invariant (Engine.new_inv True True) fun e op e' hinv hstep => ?_
  obtain ⟨⟨⟨hadmits, rfl⟩, hcalm⟩, htrading⟩ := hstep
  exact apply_inv hinv hadmits (fun _ => hcalm) fun _ => htrading

end Settled

theorem SettledStep.of_basic {crypto : Crypto} {ops : List Op} {e : Engine}
    (h : Run (BasicStep crypto) .new ops e) :
    Run (SettledStep crypto) .new ops e := by
  induction h with
  | start => exact .start
  | next hrun hstep ih =>
      exact .next ih ⟨⟨hstep.1, apply_panicked crypto
        (BasicStep.run_inv hrun).2 _⟩, Op.isTrading_of_isBasic hstep.2⟩

/-! ## Engines with the same log -/

/-- The logs agree up to their times. -/
structure Engine.Alike (e e' : Engine) : Prop where
  log : timelessLog e.log = timelessLog e'.log
  markets : e.markets = e'.markets

section Alike

variable {crypto : Crypto} {e e' e₁ e₁' : Engine} {wall wall' : Nat → UInt64}
  {signed : SignedOrder} {env env' : CallEnv}

theorem Engine.Alike.symm (h : e.Alike e') : e'.Alike e :=
  ⟨h.log.symm, h.markets.symm⟩

theorem Engine.Alike.known (h : e.Alike e') {order : Order}
    (horder : order ∈ accepted e.log) :
    ∃ order' ∈ accepted e'.log, order'.timeless = order.timeless := by
  have hmem : order.timeless ∈ (accepted e.log).map Order.timeless :=
    List.mem_map_of_mem horder
  rw [← accepted_timelessLog, h.log, accepted_timelessLog] at hmem
  exact List.mem_map.mp hmem

theorem Engine.Alike.orderInLog (h : e.Alike e') (id : OrderId) :
    (ClobApi.orderInLog e.log id).map Order.timeless =
      (ClobApi.orderInLog e'.log id).map Order.timeless := by
  rw [← orderInLog_timelessLog, h.log, orderInLog_timelessLog]

theorem Engine.Alike.next {basic basic' : Prop} (h : e.Alike e')
    (hinv : e.LogInv basic) (hinv' : e'.LogInv basic') :
    e.sequencer.nextSeqId = e'.sequencer.nextSeqId := by
  rw [hinv.next, hinv'.next, ← length_timelessLog e.log, h.log,
    length_timelessLog]

theorem Engine.Alike.findMarket (h : e.Alike e') (marketId : String) :
    e'.findMarket marketId = e.findMarket marketId := by
  unfold Engine.findMarket Engine.listMarkets
  rw [h.markets]

theorem Engine.Alike.write (h : e.Alike e')
    (hnext : e.sequencer.nextSeqId = e'.sequencer.nextSeqId)
    {events events' : List Event} (hwrites : Writes wall e e₁ events)
    (hwrites' : Writes wall' e' e₁' events')
    (hevents : events.map Event.timeless = events'.map Event.timeless)
    (hmarkets : e₁.markets = e₁'.markets) : e₁.Alike e₁' where
  log := by
    rw [hwrites.log, hwrites'.log, timelessLog_append, timelessLog_append,
      timelessLog_numbered, timelessLog_numbered, h.log, hnext, hevents]
  markets := hmarkets

/-! ## The books -/

theorem Engine.Alike.mem_ranking (h : e.Alike e')
    (hinv : e.Inv True True noOrder) (hinv' : e'.Inv True True noOrder)
    {marketId : String} {side : Side} {gist : Order}
    (hgist : gist ∈ ((bookAt e.books marketId).ranking side).map Order.gist) :
    gist ∈ ((bookAt e'.books marketId).ranking side).map Order.gist := by
  have hvalid := hinv.bookAt_valid marketId
  have hvalid' := hinv'.bookAt_valid marketId
  obtain ⟨live, hlive, rfl⟩ := List.mem_map.mp hgist
  obtain ⟨hget, hside, hopen⟩ :=
    hvalid.resting_iff.mp (hvalid.mem_ranking.mp hlive)
  rw [get_bookAt] at hget
  obtain ⟨logged, hview, hmatches⟩ := hinv.sync.stored hget
  have hcore := hmatches.core trivial
  have hsome := h.orderInLog live.orderId
  rw [hview] at hsome
  obtain ⟨logged', hview', htimeless⟩ := Option.map_eq_some_iff.mp hsome.symm
  have hopen' : logged'.isClosed = false := by
    rw [eq_of_view Order.timeless Order.isClosed (fun _ => rfl) htimeless,
      Order.isClosed_eq_of_core hcore, hopen]
  obtain ⟨live', hstored, hcore'⟩ :=
    hinv'.sync.covered trivial hview' hopen' fun hpending => hpending
  have hsame : live'.gist = live.gist := by
    unfold Order.gist
    rw [hcore', ← hcore]
    exact congrArg Order.core htimeless
  have hid : live'.orderId = live.orderId :=
    eq_of_view Order.gist Order.orderId (fun _ => rfl) hsame
  have hside' : live'.side = live.side :=
    eq_of_view Order.gist Order.side (fun _ => rfl) hsame
  have hclosed' : live'.isClosed = live.isClosed :=
    eq_of_view Order.gist Order.isClosed (fun _ => rfl) hsame
  have hmarket : logged'.marketId.value = marketId := by
    rw [eq_of_view Order.timeless Order.marketId (fun _ => rfl) htimeless,
      hmatches.logged_market]
  refine List.mem_map.mpr ⟨live', hvalid'.mem_ranking.mpr
    (hvalid'.resting_iff.mpr ⟨?_, hside'.trans hside,
      hclosed'.trans hopen⟩), hsame⟩
  rw [get_bookAt, hid, ← hmarket]
  exact hstored

theorem Engine.Alike.ranking (h : e.Alike e')
    (hinv : e.Inv True True noOrder) (hinv' : e'.Inv True True noOrder)
    (marketId : String) (side : Side) :
    ((bookAt e.books marketId).ranking side).map Order.gist =
      ((bookAt e'.books marketId).ranking side).map Order.gist := by
  have hsorted : ∀ {orders : List Order},
      orders.Pairwise (Order.Precedes side) →
        (orders.map Order.gist).Pairwise (Order.Precedes side) := by
    intro orders horders
    refine pairwise_precedes_of_rank ?_ horders
    rw [List.map_map]
    exact .refl _
  exact eq_of_pairwise_precedes
    (hsorted ((hinv.bookAt_valid marketId).ranking_sorted side))
    (hsorted ((hinv'.bookAt_valid marketId).ranking_sorted side))
    fun gist => ⟨h.mem_ranking hinv hinv', h.symm.mem_ranking hinv' hinv⟩

/-! ## Each operation -/

theorem Engine.Alike.switchMarket (h : e.Alike e')
    (hnext : e.sequencer.nextSeqId = e'.sequencer.nextSeqId)
    (marketId : String) (source target : MarketStatus) (event : Event) :
    (e.switchMarket marketId source target event wall).1.Alike
      (e'.switchMarket marketId source target event wall').1 := by
  have hwrites : ∀ wall (e : Engine) config, Writes wall e
      ((e.addMarket config).appendEvent wall event) [event] :=
    fun _ _ _ => ⟨rfl, rfl⟩
  unfold Engine.switchMarket
  rw [h.findMarket]
  cases e.findMarket marketId with
  | none => exact h
  | some market =>
      dsimp only
      split
      · exact h
      · split
        · exact h.write hnext (hwrites _ _ _) (hwrites _ _ _) rfl
            (congrArg (HashMap.insert · market.id.value _) h.markets)
        · exact h

def cancelEvents (log : List SequencedEvent) (orderId : OrderId)
    (traderId : String) : List Event :=
  ((leftOpen log orderId).filter fun order => order.traderId = traderId).elim []
    fun order => [.orderCancelled orderId order.orderHash .traderRequest]

theorem cancelEvents_timelessLog (log : List SequencedEvent)
    (orderId : OrderId) (traderId : String) :
    cancelEvents (timelessLog log) orderId traderId =
      cancelEvents log orderId traderId := by
  unfold cancelEvents leftOpen
  rw [orderInLog_timelessLog, Option.filter_map, Option.filter_map,
    Option.elim_map]
  rfl

theorem cancels_of_leftOpen (h : e.Inv True True noOrder) {orderId : OrderId}
    {logged : Order} (hopen : leftOpen e.log orderId = some logged) :
    ∃ book live, live.orderHash = logged.orderHash ∧
      e.Cancels orderId logged.traderId logged.marketId.value book live := by
  obtain ⟨hview, hopen⟩ := leftOpen_eq_some.mp hopen
  obtain ⟨live, hstored, hcore⟩ :=
    h.sync.covered trivial hview hopen fun hpending => hpending
  obtain ⟨book, hlisted, hget⟩ := storedOrder_eq_some.mp hstored
  have hterms := Order.terms_eq_of_core hcore
  refine ⟨book, live, by simpa using congrArg Order.orderHash hterms,
    ⟨?_, hlisted, hget, by simpa using congrArg Order.traderId hterms,
      (Order.isClosed_eq_of_core hcore).trans hopen⟩⟩
  rw [h.index, hview]
  rfl

theorem leftOpen_of_cancels (h : e.Inv True True noOrder) {orderId : OrderId}
    {traderId marketId : String} {book : OrderBook} {live : Order}
    (hcancels : e.Cancels orderId traderId marketId book live) :
    ∃ logged, leftOpen e.log orderId = some logged ∧
      logged.traderId = traderId := by
  obtain ⟨logged, hview, hmatches⟩ := h.sync.stored
    (storedOrder_eq_some.mpr ⟨book, hcancels.listed, hcancels.stored⟩)
  have hcore := hmatches.core trivial
  have htrader : logged.traderId = live.traderId := by
    simpa using congrArg Order.traderId (Order.terms_eq_of_core hcore)
  exact ⟨logged, leftOpen_eq_some.mpr
    ⟨hview, (Order.isClosed_eq_of_core hcore).trans hcancels.active⟩,
    htrader.trans hcancels.trader⟩

theorem processCancel_cancelEvents (h : e.Inv True True noOrder)
    (orderId : OrderId) (traderId : String) :
    Writes wall e (e.processCancel orderId traderId wall).1
      (cancelEvents e.log orderId traderId) := by
  by_cases hopen : ∃ logged, leftOpen e.log orderId = some logged ∧
      logged.traderId = traderId
  · obtain ⟨logged, hopen, rfl⟩ := hopen
    obtain ⟨book, live, hhash, hcancels⟩ := cancels_of_leftOpen h hopen
    have hevents : cancelEvents e.log orderId logged.traderId =
        [.orderCancelled orderId live.orderHash .traderRequest] := by
      rw [cancelEvents, hopen, Option.filter_some_pos (by simp), hhash]
      rfl
    rw [hcancels.processCancel_eq, hevents]
    exact ⟨rfl, rfl⟩
  · have hevents : cancelEvents e.log orderId traderId = [] := by
      have hnone : ((leftOpen e.log orderId).filter fun order =>
          order.traderId = traderId) = none := by
        rw [Option.filter_eq_none_iff]
        intro logged hlogged htrader
        exact hopen ⟨logged, hlogged, of_decide_eq_true htrader⟩
      rw [cancelEvents, hnone]
      rfl
    obtain ⟨hsame, -⟩ | ⟨marketId, book, live, hcancels⟩ :=
      Engine.processCancel_cases e orderId traderId wall
    · rw [hsame, hevents]
      exact .none rfl rfl
    · exact absurd (leftOpen_of_cancels h hcancels) hopen

theorem Engine.Alike.processCancel (h : e.Alike e')
    (hinv : e.Inv True True noOrder) (hinv' : e'.Inv True True noOrder)
    (orderId : OrderId) (traderId : String) :
    (e.processCancel orderId traderId wall).1.Alike
      (e'.processCancel orderId traderId wall').1 := by
  refine h.write (h.next hinv.toLogInv hinv'.toLogInv)
    (processCancel_cancelEvents hinv orderId traderId)
    (processCancel_cancelEvents hinv' orderId traderId) ?_ ?_
  · rw [← cancelEvents_timelessLog, h.log, cancelEvents_timelessLog]
  · rw [(processCancel_tables e orderId traderId wall).markets,
      (processCancel_tables e' orderId traderId wall').markets, h.markets]

theorem Engine.Alike.submits (h : e.Alike e')
    (hsettled : Settled crypto e) (hsettled' : Settled crypto e')
    (hunexpired : signed.Unexpired env.nowMs ↔ signed.Unexpired env'.nowMs)
    (hsubmits : e.Submits crypto signed env) :
    e'.Submits crypto signed env' := by
  obtain ⟨ops, hrun⟩ := hsettled.run
  obtain ⟨ops', hrun'⟩ := hsettled'.run
  have hinv := Step.run_inv hrun
  have hinv' := Step.run_inv hrun'
  obtain ⟨hcomplete, hfresh, hauthentic, htrades⟩ :=
    Engine.checkIntake_ok_iff.mp hsubmits.intake
  have hunseen := (idempotencyCheck_eq_none_iff hinv.toLogInv
    (Step.run_atMostOnce hrun) _ _).mp hsubmits.unseen
  have hnonce := hsubmits.nonce
  rw [hinv.state.lastNonce, lastNonce_lt_iff] at hnonce
  refine ⟨Engine.checkIntake_ok_iff.mpr ⟨hcomplete, hunexpired.mp hfresh,
    hauthentic, ?_⟩, ?_, ?_⟩
  · unfold Engine.Trades
    rw [← h.markets]
    exact htrades
  · refine (idempotencyCheck_eq_none_iff hinv'.toLogInv
      (Step.run_atMostOnce hrun') _ _).mpr fun order horder htrader => ?_
    obtain ⟨known, hknown, hsame⟩ := h.symm.known horder
    have htrader' : known.traderId = order.traderId :=
      eq_of_view Order.timeless Order.traderId (fun _ => rfl) hsame
    have hclient : known.clientOrderId = order.clientOrderId :=
      eq_of_view Order.timeless Order.clientOrderId (fun _ => rfl) hsame
    rw [← hclient]
    exact hunseen known hknown (htrader'.trans htrader)
  · rw [hinv'.state.lastNonce, lastNonce_lt_iff]
    refine ⟨hnonce.1, fun order horder htrader => ?_⟩
    obtain ⟨known, hknown, hsame⟩ := h.symm.known horder
    have htrader' : known.traderId = order.traderId :=
      eq_of_view Order.timeless Order.traderId (fun _ => rfl) hsame
    have hnonces : known.nonce = order.nonce :=
      eq_of_view Order.timeless Order.nonce (fun _ => rfl) hsame
    rw [← hnonces]
    exact hnonce.2 known hknown (htrader'.trans htrader)

theorem Engine.Alike.executed (h : e.Alike e')
    (hinv : e.Inv True True noOrder) (hinv' : e'.Inv True True noOrder)
    (hid : env.newOrderId = env'.newOrderId)
    (hadmits : e.Admits (.processOrder signed env))
    (hadmits' : e'.Admits (.processOrder signed env'))
    (hsubmits : e.Submits crypto signed env)
    (hsubmits' : e'.Submits crypto signed env') {book book' : OrderBook}
    (hbook : e.books.get? signed.marketId.value = some book)
    (hbook' : e'.books.get? signed.marketId.value = some book') :
    (e.processOrder crypto signed env).1.Alike
      (e'.processOrder crypto signed env').1 := by
  obtain ⟨st, hst⟩ : ∃ st, matchOrder book
      (Engine.buildOrder crypto signed env e.sequencer.peekNextSeqId)
      e.sequencer.peekNextSeqId env.nowMs = st := ⟨_, rfl⟩
  obtain ⟨st', hst'⟩ : ∃ st, matchOrder book'
      (Engine.buildOrder crypto signed env' e'.sequencer.peekNextSeqId)
      e'.sequencer.peekNextSeqId env'.nowMs = st := ⟨_, rfl⟩
  obtain ⟨e₁, hdone, hexecuted⟩ := hsubmits.completes hbook rfl hst
  obtain ⟨e₁', hdone', hexecuted'⟩ := hsubmits'.completes hbook' rfl hst'
  have hstart := matching_start hinv hsubmits hadmits hbook
  have hstart' := matching_start hinv' hsubmits' hadmits' hbook'
  have hnext := h.next hinv.toLogInv hinv'.toLogInv
  have htaker : (Engine.buildOrder crypto signed env
      e.sequencer.peekNextSeqId).timeless =
        (Engine.buildOrder crypto signed env'
          e'.sequencer.peekNextSeqId).timeless := by
    unfold Engine.buildOrder Sequencer.peekNextSeqId
    rw [hnext, hid]
    rfl
  have hbookAt : bookAt e.books signed.marketId.value = book := by
    rw [bookAt, hbook]
    rfl
  have hbookAt' : bookAt e'.books signed.marketId.value = book' := by
    rw [bookAt, hbook']
    rfl
  have hqueue := h.ranking hinv hinv' signed.marketId.value
    signed.side.opposite
  rw [hbookAt, hbookAt'] at hqueue
  have halike : st.Alike st' := by
    have hpeek : e'.sequencer.peekNextSeqId = e.sequencer.peekNextSeqId :=
      hnext.symm
    have hready' := hstart'.valid.taker.filled_le
    rw [← hst, ← hst']
    rw [hpeek] at htaker hready' ⊢
    exact (hinv.sync.valid hbook).matchOrder_alike (hinv'.sync.valid hbook')
      htaker ⟨hstart.valid.taker.filled_le, fun _ => rfl⟩
      ⟨hready', fun _ => rfl⟩ hqueue
  rw [hdone, hdone']
  refine h.write hnext hexecuted.writes hexecuted'.writes ?_ ?_
  · rw [List.map_cons, List.map_cons, halike.events]
    exact congrArg (· :: _) (congrArg Event.orderAccepted htaker)
  · rw [hexecuted.tables.markets, hexecuted'.tables.markets]
    exact h.markets

theorem Engine.Alike.processOrder (h : e.Alike e')
    (hsettled : Settled crypto e) (hsettled' : Settled crypto e')
    (hid : env.newOrderId = env'.newOrderId)
    (hunexpired : signed.Unexpired env.nowMs ↔ signed.Unexpired env'.nowMs)
    (hstep : SettledStep crypto e (.processOrder signed env) e₁)
    (hstep' : SettledStep crypto e' (.processOrder signed env') e₁') :
    e₁.Alike e₁' := by
  obtain ⟨⟨⟨hadmits, rfl⟩, hcalm⟩, -⟩ := hstep
  obtain ⟨⟨⟨hadmits', rfl⟩, hcalm'⟩, -⟩ := hstep'
  by_cases hsubmits : e.Submits crypto signed env
  · have hsubmits' := h.submits hsettled hsettled' hunexpired hsubmits
    cases hbook : e.books.get? signed.marketId.value with
    | none =>
        simp [Engine.apply, hsubmits.panics hbook, Reply.panicked] at hcalm
    | some book =>
        cases hbook' : e'.books.get? signed.marketId.value with
        | none =>
            simp [Engine.apply, hsubmits'.panics hbook', Reply.panicked]
              at hcalm'
        | some book' =>
            exact h.executed hsettled.inv hsettled'.inv hid hadmits hadmits'
              hsubmits hsubmits' hbook hbook'
  · have hsubmits' : ¬ e'.Submits crypto signed env' := fun hsubmits' =>
      hsubmits (h.symm.submits hsettled' hsettled hunexpired.symm hsubmits')
    simp only [Engine.apply, (Engine.processOrder_rejects hsubmits).1,
      (Engine.processOrder_rejects hsubmits').1]
    exact h

theorem Engine.Alike.recover (h : e.Alike e') {op : Op} (hask : op.ask = none)
    (hstep : SettledStep crypto e op e₁) : e₁.Alike e' := by
  obtain ⟨⟨⟨hadmits, rfl⟩, -⟩, -⟩ := hstep
  cases op with
  | restoreFromEvents shuffle events =>
      obtain rfl : events = e.log := hadmits
      refine ⟨?_, ?_⟩
      · rw [← h.log]
        exact congrArg timelessLog (restoreFromEvents_log e shuffle)
      · rw [← h.markets]
        exact restoreFromEvents_markets e shuffle e.log
  | _ => cases hask

theorem Engine.Alike.answer (h : e.Alike e') (hsettled : Settled crypto e)
    (hsettled' : Settled crypto e') {op op' : Op} {ask : Ask}
    (hstep : SettledStep crypto e op e₁)
    (hstep' : SettledStep crypto e' op' e₁') (hask : op.ask = some ask)
    (hask' : op'.ask = some ask) : e₁.Alike e₁' := by
  have hnext := h.next hsettled.inv.toLogInv hsettled'.inv.toLogInv
  have hsame := hask.trans hask'.symm
  cases op with
  | addMarket config =>
      cases op' with
      | addMarket config' =>
          cases hsame
          obtain ⟨⟨⟨-, rfl⟩, -⟩, -⟩ := hstep
          obtain ⟨⟨⟨-, rfl⟩, -⟩, -⟩ := hstep'
          exact ⟨h.log,
            congrArg (HashMap.insert · config.id.value config) h.markets⟩
      | _ => cases hsame
  | processOrder signed env =>
      cases op' with
      | processOrder signed' env' =>
          simp only [Op.ask, Option.some.injEq, Ask.submit.injEq,
            decide_eq_decide] at hsame
          obtain ⟨rfl, hid, hunexpired⟩ := hsame
          exact h.processOrder hsettled hsettled' hid hunexpired hstep hstep'
      | _ => cases hsame
  | processCancel orderId traderId wall =>
      cases op' with
      | processCancel orderId' traderId' wall' =>
          cases hsame
          obtain ⟨⟨⟨-, rfl⟩, -⟩, -⟩ := hstep
          obtain ⟨⟨⟨-, rfl⟩, -⟩, -⟩ := hstep'
          exact h.processCancel hsettled.inv hsettled'.inv orderId traderId
      | _ => cases hsame
  | pauseMarket marketId triggeredBy wall =>
      cases op' with
      | pauseMarket marketId' triggeredBy' wall' =>
          cases hsame
          obtain ⟨⟨⟨-, rfl⟩, -⟩, -⟩ := hstep
          obtain ⟨⟨⟨-, rfl⟩, -⟩, -⟩ := hstep'
          exact h.switchMarket hnext marketId _ _ _
      | _ => cases hsame
  | resumeMarket marketId triggeredBy wall =>
      cases op' with
      | resumeMarket marketId' triggeredBy' wall' =>
          cases hsame
          obtain ⟨⟨⟨-, rfl⟩, -⟩, -⟩ := hstep
          obtain ⟨⟨⟨-, rfl⟩, -⟩, -⟩ := hstep'
          exact h.switchMarket hnext marketId _ _ _
      | _ => cases hsame
  | cancelAllOrders marketId wall => cases hstep.2
  | restoreFromEvents shuffle events => cases hask

end Alike

/-! ## Runs -/

theorem alike_lockstep (crypto : Crypto) :
    Lockstep (SettledStep crypto) (SettledStep crypto) Op.ask Op.ask
      fun e e' => Settled crypto e ∧ Settled crypto e' ∧ e.Alike e' where
  left := fun ⟨hsettled, hsettled', h⟩ hstep hask =>
    ⟨hsettled.next hstep, hsettled', h.recover hask hstep⟩
  right := fun ⟨hsettled, hsettled', h⟩ hstep hask =>
    ⟨hsettled, hsettled'.next hstep, (h.symm.recover hask hstep).symm⟩
  both := fun ⟨hsettled, hsettled', h⟩ hstep hstep' hask hask' =>
    ⟨hsettled.next hstep, hsettled'.next hstep',
      h.answer hsettled hsettled' hstep hstep' hask hask'⟩

theorem stateInLog_timelessLog (log : List SequencedEvent) :
    stateInLog (timelessLog log) = stateInLog log := by
  unfold stateInLog timelessLog
  rw [List.foldl_map]
  congr 1
  funext state se
  unfold stateStep SequencedEvent.timeless
  cases se.event <;> rfl

/--
Two runs are asked the same, apart from recoveries and from the clocks they
read, which have to agree only on which new orders have expired.  They end with
the same log up to its times, the same markets and state store, and the same
orders in the same order on each side of each book.
-/
theorem same_asks_same_books {crypto : Crypto} {ops ops' : List Op}
    {e e' : Engine} (h : Run (SettledStep crypto) .new ops e)
    (h' : Run (SettledStep crypto) .new ops' e')
    (hasks : ops.filterMap Op.ask = ops'.filterMap Op.ask) :
    timelessLog e.log = timelessLog e'.log ∧ e.markets = e'.markets ∧
      e.state.Agrees e'.state ∧
      ∀ marketId side,
        ((bookAt e.books marketId).ranking side).map Order.gist =
          ((bookAt e'.books marketId).ranking side).map Order.gist := by
  have hstart : Engine.new.Alike .new := ⟨rfl, rfl⟩
  obtain ⟨hsettled, hsettled', halike⟩ := (alike_lockstep crypto).related
    ⟨⟨[], .start⟩, ⟨[], .start⟩, hstart⟩ h h' hasks
  refine ⟨halike.log, halike.markets, ?_,
    halike.ranking hsettled.inv hsettled'.inv⟩
  have hstate := hsettled.inv.state
  rw [← stateInLog_timelessLog, halike.log, stateInLog_timelessLog] at hstate
  exact hstate.trans hsettled'.inv.state.symm

namespace Sample

def lateAsk : List Op :=
  [.addMarket market,
    .processOrder ask { askEnv with nowMs := 7000, wall := fun _ => 9000 }]

def lateTraded : List Op :=
  recovering lateAsk ++
    [.processOrder bid { bidEnv with nowMs := 7500, wall := fun _ => 9500 }]

theorem traded_settled : Run (SettledStep crypto) .new traded (after traded) :=
  SettledStep.of_basic traded_run

theorem lateTraded_settled :
    Run (SettledStep crypto) .new lateTraded (after lateTraded) := by
  have hask : (after [.addMarket market]).Admits (.processOrder ask
      { askEnv with nowMs := 7000, wall := fun _ => 9000 }) :=
    fun _ horder => absurd horder List.not_mem_nil
  have hlate : Run (BasicStep crypto) .new lateAsk (after lateAsk) :=
    .next (.next .start ⟨⟨trivial, rfl⟩, rfl⟩) ⟨⟨hask, rfl⟩, rfl⟩
  have hcalm : ∀ (e : Engine) shuffle events, (e.apply crypto
      (.restoreFromEvents shuffle events)).2.panicked = false :=
    fun _ _ _ => rfl
  have hrecovered : Run (SettledStep crypto) .new (recovering lateAsk)
      (after (recovering lateAsk)) :=
    .next (SettledStep.of_basic hlate)
      ⟨⟨⟨rfl, apply_restore lateAsk⟩, hcalm _ _ _⟩, rfl⟩
  refine .next hrecovered
    ⟨⟨⟨?_, (applyAll_append crypto .new (recovering lateAsk) _).symm⟩,
      by decide +kernel⟩, rfl⟩
  change ∀ order ∈ accepted (after (recovering lateAsk)).log, _
  rw [recovering_log]
  decide +kernel

theorem same_asks_same_books_late :
    timelessLog (after traded).log = timelessLog (after lateTraded).log :=
  (same_asks_same_books traded_settled lateTraded_settled (by decide +kernel)).1

end Sample

end ClobApi
