import ClobApi.Api.Service
import ClobApi.Api.Views
import ClobApi.Guarantees.Accounting
import ClobApi.Guarantees.Failures
import ClobApi.Guarantees.ForcedCancels
import ClobApi.Guarantees.Idempotency

/-!
# Where the events come from

Every event that the server logs goes back to a request that it let through: a
signed order, a cancellation under the name of the order's trader, or an
administrator who knows the key.
-/

namespace ClobApi

open Foundation

/-! ## What a request may log -/

/-- The fill gives the signed order what it asks for, from an accepted order. -/
structure SignedOrder.Settles (signed : SignedOrder) (id : OrderId)
    (log : List SequencedEvent) (fill : Fill) : Prop where
  taker : fill.takerOrderId = id
  takerTrader : fill.takerTraderId = signed.traderId
  market : fill.marketId = signed.marketId
  maker : ∃ maker ∈ accepted log, maker.orderId = fill.makerOrderId ∧
    maker.traderId = fill.makerTraderId ∧ maker.marketId = signed.marketId ∧
    maker.side = signed.side.opposite ∧ maker.priceTicks = fill.priceTicks
  otherTrader : fill.makerTraderId ≠ signed.traderId
  bid : signed.side = .buy → fill.priceTicks ≤ signed.priceTicks
  ask : signed.side = .sell → signed.priceTicks ≤ fill.priceTicks

/-- The events that a request can answer for, given the log they end up in. -/
inductive HttpRequest.Authorises (crypto : Crypto) (adminKey : String)
    (log : List SequencedEvent) : HttpRequest → Event → Prop
  | place {order : PostOrder} (authentic : order.signed.Authentic crypto)
      (seqId : Nat) :
      Authorises crypto adminKey log (.postOrder order)
        (.orderAccepted
          (Engine.buildOrder crypto order.signed order.env seqId))
  | fill {order : PostOrder} {fill : Fill}
      (authentic : order.signed.Authentic crypto)
      (settles : order.signed.Settles order.env.newOrderId log fill) :
      Authorises crypto adminKey log (.postOrder order) (.fill fill)
  | selfTrade {order : PostOrder} (authentic : order.signed.Authentic crypto) :
      Authorises crypto adminKey log (.postOrder order)
        (.orderCancelled order.env.newOrderId
          (order.signed.canonicalHash crypto) .selfTradePrevention)
  | deleteOrder {traderId orderId : String} {wall : Nat → UInt64}
      {order : Order} (known : order ∈ accepted log)
      (id : order.orderId = ⟨orderId⟩) (trader : order.traderId = traderId) :
      Authorises crypto adminKey log
        (.deleteOrder (some traderId) orderId wall)
        (.orderCancelled order.orderId order.orderHash .traderRequest)
  | cancelByClientId {traderId clientOrderId : String} {wall : Nat → UInt64}
      {order : Order} (known : order ∈ accepted log)
      (clientId : order.clientOrderId = clientOrderId)
      (trader : order.traderId = traderId) :
      Authorises crypto adminKey log
        (.cancelByClientId traderId clientOrderId wall)
        (.orderCancelled order.orderId order.orderHash .traderRequest)
  | pause (enabled : adminKey ≠ "") {marketId triggeredBy : String}
      {wall : Nat → UInt64} :
      Authorises crypto adminKey log
        (.adminPauseMarket (some adminKey) marketId triggeredBy wall)
        (.marketPaused ⟨marketId⟩ triggeredBy)
  | resume (enabled : adminKey ≠ "") {marketId triggeredBy : String}
      {wall : Nat → UInt64} :
      Authorises crypto adminKey log
        (.adminResumeMarket (some adminKey) marketId triggeredBy wall)
        (.marketResumed ⟨marketId⟩ triggeredBy)
  | cancelAll (enabled : adminKey ≠ "") {marketId : String}
      {wall : Nat → UInt64} {order : Order}
      (known : order ∈ accepted log)
      (market : order.marketId.value = marketId) :
      Authorises crypto adminKey log
        (.adminCancelAll (some adminKey) marketId wall)
        (.orderCancelled order.orderId order.orderHash .adminForce)

theorem accepted_mono {log log' : List SequencedEvent} (h : log <+: log') :
    accepted log <+: accepted log' := by
  obtain ⟨new, rfl⟩ := h
  unfold accepted
  rw [List.filterMap_append]
  exact List.prefix_append _ _

theorem HttpRequest.Authorises.mono {crypto : Crypto} {adminKey : String}
    {log log' : List SequencedEvent} {http : HttpRequest} {event : Event}
    (h : http.Authorises crypto adminKey log event) (hlog : log <+: log') :
    http.Authorises crypto adminKey log' event := by
  have hmem : ∀ order ∈ accepted log, order ∈ accepted log' :=
    fun order horder => (accepted_mono hlog).subset horder
  cases h with
  | place authentic seqId => exact .place authentic seqId
  | fill authentic settles =>
      obtain ⟨maker, hmaker, hfacts⟩ := settles.maker
      exact .fill authentic
        { settles with maker := ⟨maker, hmem maker hmaker, hfacts⟩ }
  | selfTrade authentic => exact .selfTrade authentic
  | deleteOrder known id trader =>
      exact .deleteOrder (hmem _ known) id trader
  | cancelByClientId known clientId trader =>
      exact .cancelByClientId (hmem _ known) clientId trader
  | pause enabled => exact .pause enabled
  | resume enabled => exact .resume enabled
  | cancelAll enabled known market =>
      exact .cancelAll enabled (hmem _ known) market

/-! ## Submissions -/

section Submission

variable {completed basic : Prop} {crypto : Crypto} {e : Engine}
  {signed : SignedOrder} {env : CallEnv} {book : OrderBook}

theorem Engine.Submits.settles (hsubmits : Submits crypto e signed env)
    (h : e.Inv completed basic noOrder)
    (hfresh : e.Admits (.processOrder signed env))
    (hbook : e.books.get? signed.marketId.value = some book) {fill : Fill}
    (hfill : fill ∈ (matchOrder book
      (buildOrder crypto signed env e.sequencer.peekNextSeqId)
      e.sequencer.peekNextSeqId env.nowMs).fills) :
    signed.Settles env.newOrderId (e.processOrder crypto signed env).1.log
      fill := by
  have hstart := matching_start h hsubmits hfresh hbook
  obtain ⟨st, maker, hrun, hmeets, htrader, rfl⟩ :=
    exists_moment hstart.valid hfill
  have hmid := hstart.run hrun
  have hlegal := hmid.legalFill hmeets htrader e.sequencer.peekNextSeqId
    env.nowMs
  -- the taker keeps the terms of the signed order
  have hterms := hrun.taker_terms
  have hid : st.taker.orderId = env.newOrderId := by
    simpa [buildOrder] using congrArg Order.orderId hterms
  have howner : st.taker.traderId = signed.traderId := by
    simpa [buildOrder] using congrArg Order.traderId hterms
  have hmarket : st.taker.marketId = signed.marketId := by
    simpa [buildOrder] using congrArg Order.marketId hterms
  have hside : st.taker.side = signed.side := by
    simpa [buildOrder] using congrArg Order.side hterms
  have hprice : st.taker.priceTicks = signed.priceTicks := by
    simpa [buildOrder] using congrArg Order.priceTicks hterms
  -- the maker has the terms of its acceptance
  obtain ⟨-, hopposite, -, logged, hlogged, hmatches⟩ :=
    hmid.logged_maker hmeets
  obtain ⟨new, hnew, hnewId, hnewTerms⟩ := orderInLog_accepted hlogged
  have hsame : new.terms = maker.terms :=
    hnewTerms.symm.trans (Order.terms_eq_of_facts hmatches.facts)
  have hnewTrader : new.traderId = maker.traderId := by
    simpa using congrArg Order.traderId hsame
  have hnewMarket : new.marketId = maker.marketId := by
    simpa using congrArg Order.marketId hsame
  have hnewSide : new.side = maker.side := by
    simpa using congrArg Order.side hsame
  have hnewPrice : new.priceTicks = maker.priceTicks := by
    simpa using congrArg Order.priceTicks hsame
  obtain ⟨e', hdone, hexecuted⟩ := hsubmits.completes hbook rfl rfl
  have hknown : new ∈ accepted (e.processOrder crypto signed env).1.log := by
    rw [accepted_midway, afterAccept_writes.accepted] at hnew
    rw [hdone, hexecuted.accepted]
    exact hnew
  have hcross : st.taker.Crosses maker.priceTicks := hlegal.crosses
  unfold Order.Crosses at hcross
  rw [hside, hprice] at hcross
  have hwhere : maker.marketId = signed.marketId :=
    (hlegal.makerMarket.trans hlegal.takerMarket.symm).trans hmarket
  refine ⟨hid, howner, hwhere, ⟨new, hknown, hnewId, hnewTrader,
    hnewMarket.trans hwhere, by rw [hnewSide, hopposite, hside], hnewPrice⟩,
    howner ▸ htrader, fun hbuy => ?_, fun hsell => ?_⟩
  · rw [hbuy] at hcross
    exact hcross
  · rw [hsell] at hcross
    exact hcross

theorem processOrder_authorised {order : PostOrder} {adminKey : String}
    (h : e.Inv completed basic noOrder)
    (hfresh : e.Admits (.processOrder order.signed order.env))
    {se : SequencedEvent}
    (hse : se ∈ (e.processOrder crypto order.signed order.env).1.log) :
    se ∈ e.log ∨ (HttpRequest.postOrder order).Authorises crypto adminKey
      (e.processOrder crypto order.signed order.env).1.log se.event := by
  by_cases hsubmits : Engine.Submits crypto e order.signed order.env
  · have hauthentic : order.signed.Authentic crypto :=
      (Engine.checkIntake_ok_iff.mp hsubmits.intake).authentic
    cases hbook : e.books.get? order.signed.marketId.value with
    | none =>
        rw [hsubmits.panics hbook, afterAccept_writes.log] at hse
        rcases List.mem_append.mp hse with hold | hnew
        · exact .inl hold
        · obtain rfl := List.mem_singleton.mp hnew
          exact .inr (.place hauthentic _)
    | some book =>
        obtain ⟨e', hdone, hexecuted⟩ := hsubmits.completes hbook rfl rfl
        have hlog := hexecuted.writes.log
        rw [hdone, hlog] at hse
        rcases List.mem_append.mp hse with hold | hnew
        · exact .inl hold
        rcases List.mem_cons.mp hnew with rfl | hlater
        · exact .inr (.place hauthentic _)
        obtain ⟨fill, hfill, hevent⟩ | hevent :=
          MatchState.mem_events (mem_numbered hlater).1
        · rw [hevent]
          exact .inr (.fill hauthentic
            (hsubmits.settles h hfresh hbook hfill))
        · have hterms := matchOrder_terms book
            (Engine.buildOrder crypto order.signed order.env
              e.sequencer.peekNextSeqId)
            (Engine.buildOrder crypto order.signed order.env
              e.sequencer.peekNextSeqId).createdSequence order.env.nowMs
          have hid := congrArg Order.orderId hterms
          have hhash := congrArg Order.orderHash hterms
          simp only [Order.terms_orderId, Order.terms_orderHash] at hid hhash
          rw [hevent, hid, hhash]
          exact .inr (.selfTrade hauthentic)
  · rw [(Engine.processOrder_rejects hsubmits).1] at hse
    exact .inl hse

end Submission

/-! ## Cancellations and administration -/

section Others

variable {crypto : Crypto} {e : Engine}

theorem Engine.Inv.stored_accepted {completed basic : Prop}
    (h : e.Inv completed basic noOrder) {marketId : String} {id : OrderId}
    {live : Order} (hstored : storedOrder e.books marketId id = some live) :
    ∃ order ∈ accepted e.log, order.orderId = id ∧
      order.terms = live.terms := by
  obtain ⟨logged, hlogged, hmatches⟩ := h.sync.stored hstored
  obtain ⟨order, horder, hid, hterms⟩ := orderInLog_accepted hlogged
  exact ⟨order, horder, hid,
    hterms.symm.trans (Order.terms_eq_of_facts hmatches.facts)⟩

theorem processCancel_authorised (h : e.Inv False False noOrder)
    {orderId : OrderId} {traderId : String} {wall : Nat → UInt64}
    {se : SequencedEvent}
    (hse : se ∈ (e.processCancel orderId traderId wall).1.log) :
    se ∈ e.log ∨ ∃ order ∈ accepted e.log, order.orderId = orderId ∧
      order.traderId = traderId ∧ se.event = .orderCancelled order.orderId
        order.orderHash .traderRequest := by
  obtain ⟨hsame, -⟩ | ⟨marketId, book, live, hcancels⟩ :=
    Engine.processCancel_cases e orderId traderId wall
  · exact .inl (hsame ▸ hse)
  rw [hcancels.processCancel_eq] at hse
  rcases List.mem_append.mp hse with hold | hnew
  · exact .inl hold
  obtain rfl := List.mem_singleton.mp hnew
  obtain ⟨order, horder, hid, hsame⟩ := h.stored_accepted
    (storedOrder_eq_some.mpr ⟨book, hcancels.listed, hcancels.stored⟩)
  have htrader : order.traderId = live.traderId := by
    simpa using congrArg Order.traderId hsame
  have hhash : order.orderHash = live.orderHash := by
    simpa using congrArg Order.orderHash hsame
  exact .inr ⟨order, horder, hid, htrader.trans hcancels.trader,
    by rw [hid, hhash]⟩

theorem idempotencyCheck_accepted (h : e.LogInv False) (honce : e.AtMostOnce)
    {traderId clientOrderId : String} {record : IdempotencyRecord}
    (hrecord : e.sequencer.idempotencyCheck traderId clientOrderId =
      some record) :
    ∃ order ∈ accepted e.log, order.traderId = traderId ∧
      order.clientOrderId = clientOrderId ∧ order.orderId = record.orderId := by
  have hmem := (honce.remembers ⟨traderId, clientOrderId⟩ record.original).mp
    (congrArg (Option.map IdempotencyRecord.original) hrecord)
  rw [h.legal.originals_eq] at hmem
  obtain ⟨order, horder, hsame⟩ := List.mem_map.mp hmem
  obtain ⟨hkey, horiginal⟩ := Prod.mk.inj hsame
  exact ⟨order, horder, congrArg IdempotencyKey.traderId hkey,
    congrArg IdempotencyKey.clientOrderId hkey,
    congrArg Original.orderId horiginal⟩

theorem idempotencyCheck_eq_none_iff (h : e.LogInv False)
    (honce : e.AtMostOnce) (traderId clientOrderId : String) :
    e.sequencer.idempotencyCheck traderId clientOrderId = none ↔
      ∀ order ∈ accepted e.log, order.traderId = traderId →
        order.clientOrderId ≠ clientOrderId := by
  constructor
  · rintro hnone order horder rfl rfl
    have hentry : (order.idempotencyKey,
        (⟨order.createdSequence, order.orderId, order.orderHash⟩ : Original)) ∈
          originals e.log := by
      rw [h.legal.originals_eq]
      exact List.mem_map_of_mem horder
    obtain ⟨record, hrecord, -⟩ :=
      Option.map_eq_some_iff.mp ((honce.remembers _ _).mpr hentry)
    exact Option.some_ne_none record (hrecord.symm.trans hnone)
  · intro hall
    by_contra hsome
    obtain ⟨record, hrecord⟩ := Option.ne_none_iff_exists'.mp hsome
    obtain ⟨order, horder, htrader, hclient, -⟩ :=
      idempotencyCheck_accepted h honce hrecord
    exact hall order horder htrader hclient

theorem cancelAllOrders_authorised (h : e.LogInv False) {marketId : String}
    {wall : Nat → UInt64} {se : SequencedEvent}
    (hse : se ∈ (e.cancelAllOrders marketId wall).1.log) :
    se ∈ e.log ∨ ∃ order ∈ accepted e.log, order.marketId.value = marketId ∧
      se.event = .orderCancelled order.orderId order.orderHash .adminForce := by
  cases hfound : e.findMarket marketId with
  | none =>
      simp only [Engine.cancelAllOrders, hfound] at hse
      exact .inl hse
  | some market =>
      have hspec := cancelAllOrders_spec h.legal
        (Option.isSome_iff_exists.mpr ⟨market, hfound⟩) wall
      rw [hspec.writes.log] at hse
      rcases List.mem_append.mp hse with hold | hnew
      · exact .inl hold
      obtain ⟨order, horder, hevent⟩ := List.mem_map.mp (mem_numbered hnew).1
      obtain ⟨hknown, hmarket⟩ := List.mem_filter.mp horder
      exact .inr ⟨order, hknown, by simpa using hmarket, hevent.symm⟩

theorem switchMarket_authorised {marketId : String}
    {source target : MarketStatus} {event : Event} {wall : Nat → UInt64}
    {se : SequencedEvent}
    (hse : se ∈ (e.switchMarket marketId source target event wall).1.log) :
    se ∈ e.log ∨ se.event = event := by
  obtain hsame | hwrites :=
    switchMarket_writes e marketId source target event wall
  · exact .inl (hsame ▸ hse)
  · rw [hwrites.log] at hse
    rcases List.mem_append.mp hse with hold | hnew
    · exact .inl hold
    · exact .inr (List.mem_singleton.mp (mem_numbered hnew).1)

theorem perform_authorised {adminKey : String} {http : HttpRequest}
    {request : Request} (h : e.Inv False False noOrder)
    (honce : e.AtMostOnce) (hcalls : http.Calls adminKey request)
    (hadmits : ∀ op ∈ request.op e, e.Admits op) {se : SequencedEvent}
    (hse : se ∈ (request.perform crypto e).1.log) :
    se ∈ e.log ∨ http.Authorises crypto adminKey
      (request.perform crypto e).1.log se.event := by
  have hlog : e.log <+: (request.perform crypto e).1.log := by
    have hcall := Request.call_log crypto hadmits
    rwa [Request.call_eq_perform] at hcall
  have hknown : ∀ order ∈ accepted e.log,
      order ∈ accepted (request.perform crypto e).1.log :=
    fun order horder => (accepted_mono hlog).subset horder
  cases hcalls with
  | postOrder order => exact processOrder_authorised h (hadmits _ rfl) hse
  | deleteOrder traderId orderId wall =>
      obtain hold | ⟨order, horder, hid, htrader, hevent⟩ :=
        processCancel_authorised h hse
      · exact .inl hold
      · rw [hevent]
        exact .inr (.deleteOrder (hknown order horder) hid htrader)
  | cancelByClientId traderId clientOrderId wall =>
      cases hrecord : e.sequencer.idempotencyCheck traderId clientOrderId with
      | none =>
          simp only [Request.perform, hrecord] at hse
          exact .inl hse
      | some record =>
          have hcancelled : se ∈
              (e.processCancel record.orderId traderId wall).1.log := by
            simpa only [Request.perform, hrecord] using hse
          obtain hold | ⟨order, horder, hid, htrader, hevent⟩ :=
            processCancel_authorised h hcancelled
          · exact .inl hold
          obtain ⟨order', horder', -, hclient, hid'⟩ :=
            idempotencyCheck_accepted h.toLogInv honce hrecord
          obtain rfl := h.legal.eq_of_orderId horder horder'
            (hid.trans hid'.symm)
          rw [hevent]
          exact .inr (.cancelByClientId (hknown order horder) hclient htrader)
  | adminPauseMarket enabled marketId triggeredBy wall =>
      obtain hold | hevent := switchMarket_authorised hse
      · exact .inl hold
      · rw [hevent]
        exact .inr (.pause enabled)
  | adminResumeMarket enabled marketId triggeredBy wall =>
      obtain hold | hevent := switchMarket_authorised hse
      · exact .inl hold
      · rw [hevent]
        exact .inr (.resume enabled)
  | adminCancelAll enabled marketId wall =>
      obtain hold | ⟨order, horder, hmarket, hevent⟩ :=
        cancelAllOrders_authorised h.toLogInv hse
      · exact .inl hold
      · rw [hevent]
        exact .inr (.cancelAll enabled (hknown order horder) hmarket)

end Others

/-! ## Runs of the server -/

/-- The handler has done the work of the request and does not refuse it. -/
def Serving.Serves (http : HttpRequest) : Serving → Prop
  | .traded request _ => request = http
  | .ended request response =>
      request = http ∧ ∀ body ∈ response, body.isError = false
  | _ => False

theorem perform_serves (crypto : Crypto) (e : Engine) (http : HttpRequest)
    (request : Request) :
    (request.perform crypto e).1 = e ∨
      (Serving.afterWork http (request.perform crypto e).2).Serves http := by
  have hcancel : ∀ orderId traderId wall,
      (e.processCancel orderId traderId wall).1 = e ∨
        (Serving.afterWork http (.ofCancel
          (e.processCancel orderId traderId wall).2)).Serves http := by
    intro orderId traderId wall
    have hfailed := processCancel_failed (e := e) orderId traderId wall
    cases hanswer : (e.processCancel orderId traderId wall).2 with
    | err error => exact .inl (hfailed (by rw [hanswer]; rfl))
    | ok result =>
        exact .inr ⟨rfl, fun body hbody => by
          obtain rfl := Option.some.inj hbody
          rfl⟩
    | panic => exact .inr ⟨rfl, fun body hbody => by cases hbody⟩
  have hadmin : ∀ (call : Engine × Except AdminError Nat) (body : Nat → Body),
      (∀ n, (HttpResponse.json (body n)).isError = false) →
      (∀ error, call.2 = .error error → call.1 = e) →
      call.1 = e ∨
        (Serving.afterWork http (.ofAdmin body call.2)).Serves http := by
    intro call body hbody hfailed
    cases hanswer : call.2 with
    | error error => exact .inl (hfailed error hanswer)
    | ok n =>
        exact .inr ⟨rfl, fun response hresponse => by
          obtain rfl := Option.some.inj hresponse
          exact hbody n⟩
  cases request with
  | postOrder signed env =>
      simp only [Request.perform]
      cases houtcome : (e.processOrder crypto signed env).2 with
      | err error => exact .inl (processOrder_failed houtcome)
      | panic => exact .inr ⟨rfl, fun body hbody => by cases hbody⟩
      | ok result =>
          refine .inr ?_
          unfold Verdict.ofOrder Serving.afterWork
          dsimp only
          split
          · exact ⟨rfl, fun body hbody => by
              obtain rfl := Option.some.inj hbody
              rfl⟩
          · exact rfl
  | deleteOrder orderId traderId wall => exact hcancel orderId traderId wall
  | cancelByClientId traderId clientOrderId wall =>
      simp only [Request.perform]
      split
      · exact .inl rfl
      · exact hcancel _ traderId wall
  | adminPauseMarket marketId triggeredBy wall =>
      exact hadmin (e.pauseMarket marketId triggeredBy wall) _ (fun _ => rfl)
        fun error => switchMarket_failed marketId _ _ _ wall
  | adminResumeMarket marketId triggeredBy wall =>
      exact hadmin (e.resumeMarket marketId triggeredBy wall) _ (fun _ => rfl)
        fun error => switchMarket_failed marketId _ _ _ wall
  | adminCancelAll marketId wall =>
      exact hadmin (e.cancelAllOrders marketId wall) _ (fun _ => rfl)
        fun error => cancelAllOrders_failed marketId wall

namespace Service

variable {crypto : Crypto} {init : List SequencedEvent} {s s' : Service}

/-- Every event is old, or a request that was not refused answers for it. -/
def Attributed (crypto : Crypto) (init : List SequencedEvent)
    (s : Service) : Prop :=
  ∀ se ∈ s.server.engine.log, se ∈ init ∨
    ∃ i http, (s.servings i).Serves http ∧
      http.Authorises crypto s.adminKey s.server.engine.log se.event

theorem Effect.serves {i : Nat} {e' : Engine} {serving : Serving}
    {risk : RiskChecker} (h : Effect crypto s i e' serving risk)
    {http : HttpRequest} (hserves : (s.servings i).Serves http) :
    serving.Serves http := by
  cases h with
  | turnAway idle refused | enter idle admitted =>
      rw [idle] at hserves
      cases hserves
  | work entered locked =>
      rw [entered] at hserves
      cases hserves
  | update traded =>
      rw [traded] at hserves
      exact ⟨hserves, fun body hbody => by
        obtain rfl := Option.some.inj hbody
        rfl⟩
  | rest => exact hserves

/-- The new events of a step are those of the request it does the work of. -/
theorem Effect.authorised {i : Nat} {e' : Engine} {serving : Serving}
    {risk : RiskChecker} (h : Effect crypto s i e' serving risk)
    (hfits : s.Fits) (hinv : s.server.engine.Inv False False noOrder)
    (honce : s.server.engine.AtMostOnce) (hadmits : s.server.Admits i)
    {se : SequencedEvent} (hse : se ∈ e'.log) :
    se ∈ s.server.engine.log ∨ ∃ http, serving.Serves http ∧
      http.Authorises crypto s.adminKey e'.log se.event := by
  cases h with
  | @work http work entered locked =>
      have hi := hfits i
      rw [entered] at hi
      cases work with
      | call request =>
          have hcalls := HttpRequest.work_eq_call_iff.mp hi.1
          unfold Server.Admits at hadmits
          rw [locked] at hadmits
          obtain hsame | hserves :=
            perform_serves crypto s.server.engine http request
          · exact .inl (hsame ▸ hse)
          · exact (perform_authorised hinv honce hcalls hadmits hse).imp_right
              fun hauthorised => ⟨http, hserves, hauthorised⟩
      | _ => exact .inl hse
  | _ => exact .inl hse

theorem Effect.log_extends {i : Nat} {e' : Engine} {serving : Serving}
    {risk : RiskChecker} (h : Effect crypto s i e' serving risk)
    (hadmits : s.server.Admits i) : s.server.engine.log <+: e'.log := by
  cases h with
  | @work http work entered locked =>
      cases work with
      | call request =>
          unfold Server.Admits at hadmits
          rw [locked] at hadmits
          have hlog := Request.call_log crypto hadmits
          rwa [Request.call_eq_perform] at hlog
      | _ => exact List.prefix_refl _
  | _ => exact List.prefix_refl _

theorem Attributed.step {label : Nat × ServiceAction}
    (h : s.Attributed crypto init) (hfits : s.Fits)
    (hinv : s.server.engine.Inv False False noOrder)
    (honce : s.server.engine.AtMostOnce)
    (hstep : Step crypto s label s') : s'.Attributed crypto init := by
  obtain ⟨i, action⟩ := label
  obtain ⟨hadmits, hstep⟩ := hstep
  have hmove := step_move hstep
  have heffect := hmove.effect hfits
  have hlog := heffect.log_extends hadmits
  intro se hse
  rw [hmove.adminKey]
  obtain hold | ⟨http, hserves, hauthorised⟩ :=
    heffect.authorised hfits hinv honce hadmits hse
  · obtain hinit | ⟨j, http, hserves, hauthorised⟩ := h se hold
    · exact .inl hinit
    refine .inr ⟨j, http, ?_, hauthorised.mono hlog⟩
    by_cases hj : j = i
    · subst hj
      exact heffect.serves hserves
    · rwa [hmove.servings_of_ne hj]
  · exact .inr ⟨i, http, hserves, hauthorised⟩

theorem Step.run_engine {e : Engine} {risk : RiskChecker} {adminKey : String}
    {ops : List Op} {labels : List (Nat × ServiceAction)}
    (hstart : Run (ClobApi.Step crypto) .new ops e)
    (h : Run (Step crypto) (start e risk adminKey) labels s) :
    ∃ ops, Run (ClobApi.Step crypto) .new ops s.server.engine := by
  obtain ⟨labels, hserver⟩ := Step.run_server h
  exact Server.Step.run_engine hstart hserver

end Service

/--
In every run of the REST server, whatever its handlers interleave, each event
that was not in the log at the start goes back to a request that the server did
not refuse: an order to its authentic signature, a fill also to an accepted
order of another trader at that order's price, a trader's cancellation to a
request that names the order's trader, and what only an administrator may do to
a request with the admin key, which is not empty.
-/
theorem events_attributed {crypto : Crypto} {ops : List Op} {e : Engine}
    {risk : RiskChecker} {adminKey : String} {s : Service}
    {labels : List (Nat × ServiceAction)}
    (hstart : Run (Step crypto) .new ops e)
    (h : Run (Service.Step crypto) (.start e risk adminKey) labels s) :
    ∀ se ∈ s.server.engine.log, se ∈ e.log ∨
      ∃ i http, (s.servings i).Serves http ∧
        http.Authorises crypto adminKey s.server.engine.log se.event := by
  have hattributed : s.Attributed crypto e.log := by
    induction h with
    | start => exact fun se hse => .inl hse
    | next hrun hstep ih =>
        obtain ⟨ops, hengine⟩ := Service.Step.run_engine hstart hrun
        exact ih.step (Service.Step.run_fits hrun)
          (ClobApi.Step.run_inv hengine)
          (ClobApi.Step.run_atMostOnce hengine) hstep
  intro se hse
  have hkey := Service.Step.run_adminKey h
  rw [← hkey]
  exact hattributed se hse

theorem events_attributed_interleaved :
    ∃ s, Run (Service.Step Sample.crypto) Sample.openService
        Sample.interleaved s ∧ s.server.engine.log.length = 5 ∧
      ∀ se ∈ s.server.engine.log, ∃ i http, (s.servings i).Serves http ∧
        http.Authorises Sample.crypto "key" s.server.engine.log se.event := by
  have hlength : (Sample.openService.runAll Sample.crypto
      Sample.interleaved).map (·.server.engine.log.length) = some 5 := by
    decide +kernel
  obtain ⟨s, hs, hfive⟩ := Option.map_eq_some_iff.mp hlength
  have hrun := Service.runAll_run hs
  refine ⟨s, hrun, hfive, fun se hse => ?_⟩
  exact (events_attributed Sample.opened_run hrun se hse).resolve_left nofun

end ClobApi
