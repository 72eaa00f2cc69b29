import ClobApi.Engine.Advance
import ClobApi.Guarantees.Provenance

/-!
# What a response confirms

A successful response of a mutating route says something about the log, and the
log goes on saying so, whatever the other handlers do meanwhile.
-/

namespace ClobApi

open Foundation

/-! ## The matching of one order -/

def Event.isMatchOf (id : OrderId) : Event → Bool
  | .fill trade => trade.takerOrderId == id
  | .orderCancelled orderId _ .selfTradePrevention => orderId == id
  | _ => false

def matchedIn (log : List SequencedEvent) (id : OrderId) : List Event :=
  (log.map SequencedEvent.event).filter (Event.isMatchOf id)

section Matched

variable {crypto : Crypto} {e e' : Engine} {wall : Nat → UInt64}
  {events : List Event} {signed : SignedOrder} {env : CallEnv} {id : OrderId}

theorem Writes.matchedIn (h : Writes wall e e' events) (id : OrderId) :
    matchedIn e'.log id =
      matchedIn e.log id ++ events.filter (Event.isMatchOf id) := by
  unfold ClobApi.matchedIn
  rw [h.log, List.map_append, List.filter_append, map_event_numbered]

theorem Writes.matchedIn_of_none (h : Writes wall e e' events)
    (hnone : ∀ event ∈ events, event.isMatchOf id = false) :
    ClobApi.matchedIn e'.log id = ClobApi.matchedIn e.log id := by
  rw [h.matchedIn, List.filter_eq_nil_iff.mpr (by simpa using hnone),
    List.append_nil]

theorem LegalEvent.known_of_match {strict : Prop} {log : List SequencedEvent}
    {event : Event} (h : LegalEvent strict log event)
    (hmatch : event.isMatchOf id = true) :
    ∃ order ∈ accepted log, order.orderId = id := by
  have hnamed : id ∈ event.names := by
    unfold Event.isMatchOf at hmatch
    split at hmatch
    · obtain rfl := beq_iff_eq.mp hmatch
      exact .head _
    · obtain rfl := beq_iff_eq.mp hmatch
      exact .head _
    · cases hmatch
  obtain ⟨order, horder⟩ := h.names_known hnamed
  obtain ⟨new, hnew, hid, -⟩ := orderInLog_accepted horder
  exact ⟨new, hnew, hid⟩

theorem LegalLog.matchedIn_fresh {strict : Prop} {log : List SequencedEvent}
    (h : LegalLog strict log) (hfresh : ∀ order ∈ accepted log,
      order.orderId ≠ id) : matchedIn log id = [] := by
  refine List.filter_eq_nil_iff.mpr fun event hevent hmatch => ?_
  obtain ⟨se, hse, rfl⟩ := List.mem_map.mp hevent
  obtain ⟨before, after, rfl⟩ := List.append_of_mem hse
  obtain ⟨-, hlegal⟩ := h.split rfl
  obtain ⟨order, horder, hid⟩ := hlegal.known_of_match hmatch
  exact hfresh order ((accepted_mono (List.prefix_append _ _)).subset horder)
    hid

theorem Engine.Submits.match_events (hsubmits : Submits crypto e signed env)
    (hinv : e.Inv False False noOrder)
    (hfresh : e.Admits (.processOrder signed env)) {book : OrderBook}
    (hbook : e.books.get? signed.marketId.value = some book) (id : OrderId) :
    ∀ event ∈ (matchOrder book
        (buildOrder crypto signed env e.sequencer.peekNextSeqId)
        e.sequencer.peekNextSeqId env.nowMs).events,
      event.isMatchOf id = (env.newOrderId == id) := by
  have hstart := matching_start hinv hsubmits hfresh hbook
  intro event hevent
  obtain ⟨fill, hfill, rfl⟩ | rfl := MatchState.mem_events hevent
  · obtain ⟨st, maker, hrun, -, -, rfl⟩ := exists_moment hstart.valid hfill
    have hid : st.taker.orderId = env.newOrderId :=
      congrArg Order.orderId hrun.taker_terms
    simp [Event.isMatchOf, makeFill, hid]
  · have hid := congrArg Order.orderId (matchOrder_terms book
      (buildOrder crypto signed env e.sequencer.peekNextSeqId)
      e.sequencer.peekNextSeqId env.nowMs)
    simp only [Order.terms_orderId] at hid
    exact congrArg (· == id) hid

theorem matchedIn_apply (h : e.Inv False False noOrder) {op : Op}
    (hadmits : e.Admits op) {order : Order} (horder : order ∈ accepted e.log) :
    matchedIn (e.apply crypto op).1.log order.orderId =
      matchedIn e.log order.orderId := by
  have hswitch : ∀ marketId source target event wall,
      event.isMatchOf order.orderId = false →
      matchedIn (e.switchMarket marketId source target event wall).1.log
        order.orderId = matchedIn e.log order.orderId := by
    intro marketId source target event wall hevent
    obtain hsame | hwrites :=
      switchMarket_writes e marketId source target event wall
    · rw [hsame]
    · exact hwrites.matchedIn_of_none (by simpa using hevent)
  cases op with
  | addMarket config => rfl
  | processOrder signed env =>
      by_cases hsubmits : Engine.Submits crypto e signed env
      · cases hbook : e.books.get? signed.marketId.value with
        | none =>
            simp only [Engine.apply, hsubmits.panics hbook]
            exact afterAccept_writes.matchedIn_of_none
              (by simp [Event.isMatchOf])
        | some book =>
            obtain ⟨e', hdone, hexecuted⟩ := hsubmits.completes hbook rfl rfl
            simp only [Engine.apply, hdone]
            refine hexecuted.writes.matchedIn_of_none fun event hevent => ?_
            rcases List.mem_cons.mp hevent with rfl | hlater
            · rfl
            · rw [hsubmits.match_events h hadmits hbook _ event hlater]
              exact beq_eq_false_iff_ne.mpr (Ne.symm (hadmits order horder))
      · simp only [Engine.apply, (Engine.processOrder_rejects hsubmits).1]
  | processCancel orderId traderId wall =>
      obtain hsame | ⟨hash, hwrites⟩ :=
        processCancel_writes e orderId traderId wall
      · simp only [Engine.apply, hsame]
      · exact hwrites.matchedIn_of_none (by simp [Event.isMatchOf])
  | pauseMarket marketId triggeredBy wall => exact hswitch _ _ _ _ _ rfl
  | resumeMarket marketId triggeredBy wall => exact hswitch _ _ _ _ _ rfl
  | cancelAllOrders marketId wall =>
      obtain ⟨targets, hwrites⟩ := cancelAllOrders_writes e marketId wall
      refine hwrites.matchedIn_of_none fun event hevent => ?_
      obtain ⟨target, -, rfl⟩ := List.mem_map.mp hevent
      rfl
  | restoreFromEvents shuffle events =>
      obtain rfl : events = e.log := hadmits
      simp only [Engine.apply]
      rw [restoreFromEvents_log]

end Matched

/-! ## The taker's sums -/

section Sums

variable {seqId : Nat} {nowMs : UInt64} {st st' : MatchState}

/-- What the fills of a run say of the taker, whose first state is `st`. -/
structure MatchState.Sums (st : MatchState) : Prop where
  total : st.taker.filledSizeLots.toNat =
    (st.fills.map fun fill => fill.sizeLots.toNat).sum
  folded : (st.fills.map Fill.sizeLots).foldl (· + ·) 0 =
    st.taker.filledSizeLots
  status : st.taker.status =
    if st.fills = [] then .open
    else if st.taker.remainingSizeLots = 0 then .filled
    else .partiallyFilled

theorem FillRun.sums (h : FillRun seqId nowMs st st') (hvalid : st.Valid)
    (hsums : st.Sums) : st'.Sums := by
  induction h with
  | refl => exact hsums
  | @tail mid last hrun hstep ih =>
      have hmid := FillRun.valid hrun hvalid
      cases hstep with
      | @fill maker meets trader =>
          have hqty : mid.fillQty maker ≤ mid.taker.remainingSizeLots :=
            MatchState.fillQty_le_taker
          refine ⟨?_, ?_, ?_⟩
          · simp only [MatchState.fillAgainst, applyFillTo_filledSizeLots,
              filled_add_toNat hmid.taker.filled_le hqty, ih.total,
              List.map_append, List.sum_append]
            simp [makeFill]
          · simp only [MatchState.fillAgainst, List.map_append,
              List.foldl_append, ih.folded]
            rfl
          · refine (applyFillTo_status _ _ seqId).trans (if_neg ?_).symm
            simp [MatchState.fillAgainst]

theorem Engine.Submits.sums {crypto : Crypto} {e : Engine}
    {signed : SignedOrder} {env : CallEnv} {book : OrderBook}
    (hsubmits : Submits crypto e signed env)
    (hinv : e.Inv False False noOrder)
    (hfresh : e.Admits (.processOrder signed env))
    (hbook : e.books.get? signed.marketId.value = some book)
    (hst : matchOrder book
      (buildOrder crypto signed env e.sequencer.peekNextSeqId)
      e.sequencer.peekNextSeqId env.nowMs = st) :
    ∃ mid : MatchState, mid.Sums ∧ mid.fills = st.fills ∧
      mid.taker.origSizeLots = signed.sizeLots ∧ mid.taker.Consistent ∧
      (st.taker.status ≠ .cancelledStp → st.taker = mid.taker) := by
  have hstart := matching_start hinv hsubmits hfresh hbook
  obtain ⟨mid, hrun, hend⟩ :=
    matchOrder_run hstart.valid e.sequencer.peekNextSeqId env.nowMs
  rw [hst] at hend
  have hsize : mid.taker.origSizeLots = signed.sizeLots :=
    congrArg Order.origSizeLots hrun.taker_terms
  refine ⟨mid, hrun.sums hstart.valid ⟨rfl, rfl, rfl⟩, hend.same.2.1.symm,
    hsize, (hrun.valid hstart.valid).taker, fun hnot => ?_⟩
  cases hend with
  | filled full => rfl
  | exhausted none => rfl
  | selfTrade meets trader => exact absurd rfl hnot

end Sums

/-! ## What the log bears out -/

structure Booked (crypto : Crypto) (log : List SequencedEvent)
    (order : PostOrder) (body : OrderAcceptedResponse) : Prop where
  first : body.isDuplicate = false
  orderId : body.orderId = order.env.newOrderId.value
  orderHash : body.orderHash =
    hexEncode (order.signed.canonicalHash crypto).bytes.toList
  placed : ∃ timestampMs, (⟨body.seqId, timestampMs, .orderAccepted
    (Engine.buildOrder crypto order.signed order.env body.seqId)⟩ :
      SequencedEvent) ∈ log
  matched : ∃ fills : List Fill,
    matchedIn log order.env.newOrderId = fills.map .fill ++
      (if body.status = .cancelledStp then
        [.orderCancelled order.env.newOrderId
          (order.signed.canonicalHash crypto) .selfTradePrevention]
      else []) ∧
    body.fillCount = fills.length ∧
    body.filledQty.toNat = (fills.map fun fill => fill.sizeLots.toNat).sum
  status : body.status ≠ .cancelledStp → body.status =
    if body.filledQty = order.signed.sizeLots then .filled
    else if body.fillCount = 0 then .open
    else .partiallyFilled

/-- The numbers of the acceptance that a retry repeats. -/
structure RepeatsAcceptance (log : List SequencedEvent) (signed : SignedOrder)
    (body : OrderAcceptedResponse) (first : Order) : Prop where
  known : first ∈ accepted log
  traderId : first.traderId = signed.traderId
  clientOrderId : first.clientOrderId = signed.clientOrderId
  orderId : body.orderId = first.orderId.value
  orderHash : body.orderHash = hexEncode first.orderHash.bytes.toList
  seqId : body.seqId = first.createdSequence
  noFills : body.fillCount = 0 ∧ body.filledQty = 0
  isDuplicate : body.isDuplicate = true

def Ended (log : List SequencedEvent) (order : Order) : Prop :=
  filledInLog log order.orderId = order.origSizeLots.toNat ∨
    ∃ se ∈ log, ∃ reason,
      se.event = .orderCancelled order.orderId order.orderHash reason

/-- The cancellation of an accepted order, or its end before. -/
structure Withdrawn (log : List SequencedEvent) (order : Order)
    (body : CancelledResponse) : Prop where
  known : order ∈ accepted log
  orderId : body.orderId = order.orderId.value
  now : ∀ seqId, body.seqId = some seqId → body.wasAlreadyClosed = false ∧
    ∃ timestampMs, (⟨seqId, timestampMs, .orderCancelled order.orderId
      order.orderHash .traderRequest⟩ : SequencedEvent) ∈ log
  before : body.seqId = none → body.wasAlreadyClosed = true ∧ Ended log order

/-- The log bears out the response of a mutating route. -/
inductive Confirmed (crypto : Crypto) (log : List SequencedEvent) :
    HttpRequest → HttpResponse → Prop
  | created {order : PostOrder} {body : OrderAcceptedResponse}
      (booked : Booked crypto log order body) :
      Confirmed crypto log (.postOrder order) ⟨201, .orderAccepted body⟩
  | repeated {order : PostOrder} {body : OrderAcceptedResponse} {first : Order}
      (repeats : RepeatsAcceptance log order.signed body first) :
      Confirmed crypto log (.postOrder order) ⟨200, .orderAccepted body⟩
  | deleteOrder {traderId orderId : String} {wall : Nat → UInt64}
      {body : CancelledResponse} {order : Order}
      (withdrawn : Withdrawn log order body) (id : order.orderId = ⟨orderId⟩)
      (trader : order.traderId = traderId) :
      Confirmed crypto log (.deleteOrder (some traderId) orderId wall)
        (.json (.cancelled body))
  | cancelByClientId {traderId clientOrderId : String} {wall : Nat → UInt64}
      {body : CancelledResponse} {order : Order}
      (withdrawn : Withdrawn log order body)
      (clientId : order.clientOrderId = clientOrderId)
      (trader : order.traderId = traderId) :
      Confirmed crypto log (.cancelByClientId traderId clientOrderId wall)
        (.json (.cancelled body))
  | adminPauseMarket {adminKey : Option String} {marketId triggeredBy : String}
      {wall : Nat → UInt64} {seqId : Nat}
      (logged : ∃ timestampMs, (⟨seqId, timestampMs,
        .marketPaused ⟨marketId⟩ triggeredBy⟩ : SequencedEvent) ∈ log) :
      Confirmed crypto log
        (.adminPauseMarket adminKey marketId triggeredBy wall)
        (.json (.adminPauseResume marketId seqId))
  | adminResumeMarket {adminKey : Option String}
      {marketId triggeredBy : String} {wall : Nat → UInt64} {seqId : Nat}
      (logged : ∃ timestampMs, (⟨seqId, timestampMs,
        .marketResumed ⟨marketId⟩ triggeredBy⟩ : SequencedEvent) ∈ log) :
      Confirmed crypto log
        (.adminResumeMarket adminKey marketId triggeredBy wall)
        (.json (.adminPauseResume marketId seqId))
  | adminCancelAll {adminKey : Option String} {marketId : String}
      {wall : Nat → UInt64} {before new after : List SequencedEvent}
      (logged : log = before ++ new ++ after)
      (cancels : new.map SequencedEvent.event =
        ((accepted before).filter fun order =>
          order.marketId.value = marketId).map fun order =>
            .orderCancelled order.orderId order.orderHash .adminForce) :
      Confirmed crypto log (.adminCancelAll adminKey marketId wall)
        (.json (.adminCancelAll marketId new.length))

/-! ## Later events take nothing back -/

structure Grows (log log' : List SequencedEvent) : Prop where
  grown : log <+: log'
  legal : LegalLog False log'
  matched : ∀ order ∈ accepted log,
    matchedIn log' order.orderId = matchedIn log order.orderId

section Grows

variable {crypto : Crypto} {log log' : List SequencedEvent}

theorem Grows.known (h : Grows log log') {order : Order}
    (horder : order ∈ accepted log) : order ∈ accepted log' :=
  (accepted_mono h.grown).subset horder

theorem filledInLog_mono (h : log <+: log') (id : OrderId) :
    filledInLog log id ≤ filledInLog log' id := by
  obtain ⟨new, rfl⟩ := h
  unfold filledInLog
  rw [List.map_append, List.sum_append]
  exact Nat.le_add_right _ _

theorem LegalLog.filledInLog_le {strict : Prop} (h : LegalLog strict log)
    {order : Order} (horder : order ∈ accepted log) :
    filledInLog log order.orderId ≤ order.origSizeLots.toNat := by
  obtain ⟨logged, hview, hterms⟩ := h.accepted_view horder
  have hsize : logged.origSizeLots = order.origSizeLots := by
    simpa using congrArg Order.origSizeLots hterms
  rw [← h.filledSizeLots_toNat hview, ← hsize]
  exact UInt64.le_iff_toNat_le.mp (h.loggedOrder hview).consistent.filled_le

theorem Ended.mono {order : Order} (h : Ended log order)
    (horder : order ∈ accepted log) (hgrows : Grows log log') :
    Ended log' order := by
  rcases h with hfilled | ⟨se, hse, hcancelled⟩
  · refine .inl (Nat.le_antisymm ?_ ?_)
    · exact hgrows.legal.filledInLog_le (hgrows.known horder)
    · rw [← hfilled]
      exact filledInLog_mono hgrows.grown _
  · exact .inr ⟨se, hgrows.grown.subset hse, hcancelled⟩

theorem Withdrawn.mono {order : Order} {body : CancelledResponse}
    (h : Withdrawn log order body) (hgrows : Grows log log') :
    Withdrawn log' order body where
  known := hgrows.known h.known
  orderId := h.orderId
  now := by
    intro seqId hseqId
    obtain ⟨hopen, timestampMs, hse⟩ := h.now seqId hseqId
    exact ⟨hopen, timestampMs, hgrows.grown.subset hse⟩
  before := by
    intro hnone
    obtain ⟨hclosed, hended⟩ := h.before hnone
    exact ⟨hclosed, hended.mono h.known hgrows⟩

theorem Booked.mono {order : PostOrder} {body : OrderAcceptedResponse}
    (h : Booked crypto log order body) (hgrows : Grows log log') :
    Booked crypto log' order body := by
  obtain ⟨timestampMs, hse⟩ := h.placed
  have hknown : Engine.buildOrder crypto order.signed order.env body.seqId ∈
      accepted log :=
    List.mem_filterMap.mpr ⟨_, hse, rfl⟩
  have hsame : matchedIn log' order.env.newOrderId =
      matchedIn log order.env.newOrderId :=
    hgrows.matched _ hknown
  exact { h with
    placed := ⟨timestampMs, hgrows.grown.subset hse⟩
    matched := by
      rw [hsame]
      exact h.matched }

theorem Confirmed.mono {http : HttpRequest} {response : HttpResponse}
    (h : Confirmed crypto log http response) (hgrows : Grows log log') :
    Confirmed crypto log' http response := by
  cases h with
  | created booked => exact .created (booked.mono hgrows)
  | repeated repeats =>
      exact .repeated { repeats with known := hgrows.known repeats.known }
  | deleteOrder withdrawn id trader =>
      exact .deleteOrder (withdrawn.mono hgrows) id trader
  | cancelByClientId withdrawn clientId trader =>
      exact .cancelByClientId (withdrawn.mono hgrows) clientId trader
  | adminPauseMarket logged =>
      exact .adminPauseMarket (logged.imp fun _ hse =>
        hgrows.grown.subset hse)
  | adminResumeMarket logged =>
      exact .adminResumeMarket (logged.imp fun _ hse =>
        hgrows.grown.subset hse)
  | @adminCancelAll adminKey marketId wall before new after logged cancels =>
      obtain ⟨later, hlater⟩ := hgrows.grown
      have hlogged : log' = before ++ new ++ (after ++ later) := by
        rw [← hlater, logged, List.append_assoc _ after later]
      exact .adminCancelAll hlogged cancels

end Grows

/-! ## Each mutating handler -/

section Performed

variable {crypto : Crypto} {e e' : Engine}

theorem Engine.Executed.booked {order : PostOrder} {book : OrderBook}
    {st : MatchState} (h : e.Inv False False noOrder)
    (hsubmits : Submits crypto e order.signed order.env)
    (hfresh : e.Admits (.processOrder order.signed order.env))
    (hbook : e.books.get? order.signed.marketId.value = some book)
    (hst : matchOrder book
      (buildOrder crypto order.signed order.env e.sequencer.peekNextSeqId)
      e.sequencer.peekNextSeqId order.env.nowMs = st)
    (hexecuted : e.Executed crypto order.signed order.env st e') :
    Booked crypto e'.log order (.ofResult ⟨order.env.newOrderId,
      order.signed.canonicalHash crypto, e.sequencer.peekNextSeqId, st.fills,
      st.taker.status, false⟩) := by
  obtain ⟨mid, hsums, hfills, hsize, hconsistent, hsame⟩ :=
    hsubmits.sums h hfresh hbook hst
  have hevents := hsubmits.match_events h hfresh hbook order.env.newOrderId
  have hterms := matchOrder_terms book
    (buildOrder crypto order.signed order.env e.sequencer.peekNextSeqId)
    e.sequencer.peekNextSeqId order.env.nowMs
  rw [hst] at hevents hterms
  have hid := congrArg Order.orderId hterms
  have hhash := congrArg Order.orderHash hterms
  simp only [Order.terms_orderId, Order.terms_orderHash] at hid hhash
  have hfolded : (OrderAcceptedResponse.ofResult ⟨order.env.newOrderId,
      order.signed.canonicalHash crypto, e.sequencer.peekNextSeqId, st.fills,
      st.taker.status, false⟩).filledQty = mid.taker.filledSizeLots := by
    rw [← hsums.folded, hfills]
    rfl
  refine ⟨rfl, rfl, rfl, ⟨order.env.wall e.sequencer.nextSeqId, ?_⟩,
    ⟨st.fills, ?_, rfl, ?_⟩, fun hnot => ?_⟩
  · rw [hexecuted.writes.log]
    exact List.mem_append_right _ (.head _)
  · rw [hexecuted.writes.matchedIn, h.legal.matchedIn_fresh hfresh,
      List.nil_append, List.filter_cons_of_neg (by simp [Event.isMatchOf]),
      List.filter_eq_self.mpr fun event hevent => by
        rw [hevents event hevent, beq_self_eq_true],
      MatchState.events, hid, hhash]
    rfl
  · rw [hfolded, hsums.total, hfills]
  · have hstatus : st.taker.status = mid.taker.status :=
      congrArg Order.status (hsame hnot)
    have hpositive : order.signed.sizeLots ≠ 0 :=
      (checkIntake_ok hsubmits.intake).1
    have hfull : mid.taker.remainingSizeLots = 0 ↔
        mid.taker.filledSizeLots = order.signed.sizeLots := by
      rw [Order.remainingSizeLots_eq_zero_iff hconsistent.filled_le, hsize]
    rw [hfolded]
    refine hstatus.trans (hsums.status.trans ?_)
    rw [hfills]
    simp only [hfull]
    change _ = if mid.taker.filledSizeLots = order.signed.sizeLots then _ else
      if st.fills.length = 0 then _ else _
    by_cases hnone : st.fills = []
    · have hzero : mid.taker.filledSizeLots = 0 := by
        rw [← hsums.folded, hfills, hnone]
        rfl
      simp [hnone, hzero, Ne.symm hpositive]
    · simp [hnone]

theorem processOrder_confirmed {order : PostOrder} {result : OrderResult}
    (h : e.Inv False False noOrder) (honce : e.AtMostOnce)
    (hfresh : e.Admits (.processOrder order.signed order.env))
    (hok : (e.processOrder crypto order.signed order.env).2 = .ok result) :
    Confirmed crypto (e.processOrder crypto order.signed order.env).1.log
      (.postOrder order) result.toResponse := by
  by_cases hsubmits : Engine.Submits crypto e order.signed order.env
  · cases hbook : e.books.get? order.signed.marketId.value with
    | none =>
        rw [hsubmits.panics hbook] at hok
        cases hok
    | some book =>
        obtain ⟨e', hdone, hexecuted⟩ := hsubmits.completes hbook rfl rfl
        rw [hdone] at hok ⊢
        cases hok
        exact .created (hexecuted.booked h hsubmits hfresh hbook rfl)
  · obtain ⟨hsame, -, hanswer⟩ := Engine.processOrder_rejects hsubmits
    obtain ⟨record, hrecord, rfl⟩ := hanswer result hok
    have hmem := (honce.remembers order.signed.idempotencyKey
      record.original).mp (congrArg (Option.map IdempotencyRecord.original)
        hrecord)
    rw [h.legal.originals_eq] at hmem
    obtain ⟨first, hfirst, hpair⟩ := List.mem_map.mp hmem
    obtain ⟨hkey, horiginal⟩ := Prod.mk.inj hpair
    have hid : first.orderId = record.orderId :=
      congrArg Original.orderId horiginal
    have hhash : first.orderHash = record.orderHash :=
      congrArg Original.orderHash horiginal
    have hseq : first.createdSequence = record.originalSeqId :=
      congrArg Original.seqId horiginal
    rw [hsame]
    have hrepeats : RepeatsAcceptance e.log order.signed
        (.ofResult (e.duplicateResult record)) first :=
      ⟨hfirst, congrArg IdempotencyKey.traderId hkey,
        congrArg IdempotencyKey.clientOrderId hkey, by rw [hid]; rfl,
        by rw [hhash]; rfl, hseq.symm, ⟨rfl, rfl⟩, rfl⟩
    exact .repeated hrepeats

theorem processCancel_ok {orderId : OrderId} {traderId : String}
    {wall : Nat → UInt64} {result : CancelResult}
    (hok : (e.processCancel orderId traderId wall).2 = .ok result) :
    ∃ marketId live, storedOrder e.books marketId orderId = some live ∧
      live.traderId = traderId ∧
      ((live.isClosed = true ∧ result = ⟨orderId, none, true⟩ ∧
        (e.processCancel orderId traderId wall).1 = e) ∨
      (result = ⟨orderId, some e.sequencer.nextSeqId, false⟩ ∧
        Writes wall e (e.processCancel orderId traderId wall).1
          [.orderCancelled orderId live.orderHash .traderRequest])) := by
  unfold Engine.processCancel at hok ⊢
  split at hok
  · cases hok
  next marketId hindex =>
    split at hok
    · cases hok
    next book hbook =>
      split at hok
      · cases hok
      next live hget =>
        split at hok
        · cases hok
        next htrader =>
          refine ⟨marketId, live, storedOrder_eq_some.mpr ⟨book, hbook, hget⟩,
            not_not.mp htrader, ?_⟩
          simp only [if_neg htrader]
          split at hok
          · next hclosed =>
              cases hok
              exact .inl ⟨hclosed, rfl, by rw [if_pos hclosed]⟩
          · next hopen =>
              cases hok
              rw [if_neg hopen]
              exact .inr ⟨rfl, rfl, rfl⟩

theorem processCancel_withdrawn (h : e.Inv False False noOrder)
    (hcause : e.ClosesForCause) {orderId : OrderId} {traderId : String}
    {wall : Nat → UInt64} {result : CancelResult}
    (hok : (e.processCancel orderId traderId wall).2 = .ok result) :
    ∃ order, Withdrawn (e.processCancel orderId traderId wall).1.log order
        ⟨result.orderId.value, result.seqId, result.wasAlreadyClosed⟩ ∧
      order ∈ accepted e.log ∧ order.orderId = orderId ∧
      order.traderId = traderId := by
  obtain ⟨marketId, live, hstored, htrader, hresult⟩ := processCancel_ok hok
  obtain ⟨logged, hlogged, hmatches⟩ := h.sync.stored hstored
  obtain ⟨order, horder, hid, hterms⟩ := orderInLog_accepted hlogged
  have hsame : order.terms = live.terms :=
    hterms.symm.trans (Order.terms_eq_of_facts hmatches.facts)
  have howner : order.traderId = live.traderId := by
    simpa using congrArg Order.traderId hsame
  have hhash : order.orderHash = live.orderHash := by
    simpa using congrArg Order.orderHash hsame
  have hliveId : live.orderId = order.orderId := by
    simpa using (congrArg Order.orderId hsame).symm
  have hsize : live.origSizeLots = order.origSizeLots := by
    simpa using (congrArg Order.origSizeLots hsame).symm
  refine ⟨order, ?_, horder, hid, howner.trans htrader⟩
  obtain ⟨hclosed, rfl, hunchanged⟩ | ⟨rfl, hwrites⟩ := hresult
  · rw [hunchanged]
    refine ⟨horder, by rw [hid], nofun, fun _ => ⟨rfl, ?_⟩⟩
    rcases hcause hstored hclosed with hfilled | ⟨se, hse, reason, hcancelled⟩
    · left
      rw [hid, ← h.legal.filledSizeLots_toNat hlogged,
        Order.filledSizeLots_eq_of_facts hmatches.facts, hfilled, hsize]
    · exact .inr ⟨se, hse, reason, by rw [hcancelled, hliveId, hhash]⟩
  · have hextends := hwrites.log_extends
    refine ⟨(accepted_mono hextends).subset horder, by rw [hid], ?_, nofun⟩
    intro seqId hseqId
    obtain rfl := Option.some.inj hseqId
    refine ⟨rfl, wall e.sequencer.nextSeqId, ?_⟩
    rw [hwrites.log, hid, hhash]
    exact List.mem_append_right _ (.head _)

theorem switchMarket_confirmed {marketId : String}
    {source target : MarketStatus} {event : Event} {wall : Nat → UInt64}
    {seqId : Nat}
    (hok : (e.switchMarket marketId source target event wall).2 = .ok seqId) :
    ∃ timestampMs, (⟨seqId, timestampMs, event⟩ : SequencedEvent) ∈
      (e.switchMarket marketId source target event wall).1.log := by
  obtain ⟨error, hrefused⟩ | ⟨market, hfind, htarget, hsource⟩ :=
    Engine.switchMarket_cases e marketId source target event wall
  · rw [hrefused] at hok
    cases hok
  · rw [Engine.switchMarket_eq hfind htarget hsource] at hok ⊢
    obtain rfl := Except.ok.inj hok
    exact ⟨wall e.sequencer.nextSeqId, List.mem_append_right _ (.head _)⟩

theorem cancelAllOrders_confirmed {adminKey : Option String}
    (h : e.Inv False False noOrder) {marketId : String} {wall : Nat → UInt64}
    {count : Nat} (hok : (e.cancelAllOrders marketId wall).2 = .ok count) :
    Confirmed crypto (e.cancelAllOrders marketId wall).1.log
      (.adminCancelAll adminKey marketId wall)
      (.json (.adminCancelAll marketId count)) := by
  have hregistered : (e.findMarket marketId).isSome = true := by
    cases hfound : e.findMarket marketId with
    | some market => rfl
    | none =>
        simp only [Engine.cancelAllOrders, hfound] at hok
        cases hok
  have hspec := cancelAllOrders_spec h.legal hregistered wall
  have hlog := hspec.writes.log
  obtain rfl := Except.ok.inj (hspec.answer.symm.trans hok)
  rw [← List.append_nil (_ ++ _)] at hlog
  have hconfirmed : Confirmed crypto _
      (.adminCancelAll adminKey marketId wall) _ :=
    .adminCancelAll hlog (map_event_numbered _ _ _)
  rwa [length_numbered, List.length_map] at hconfirmed

/-- What the block under the engine lock answers. -/
def Verdict.response? : Verdict → Option HttpResponse
  | .panicked => none
  | .failed response | .done response => some response
  | .ordered result => some result.toResponse

theorem ofCancel_response {outcome : Outcome CancelError CancelResult}
    {response : HttpResponse}
    (h : (Verdict.ofCancel outcome).response? = some response)
    (hgood : response.isError = false) : ∃ result, outcome = .ok result ∧
      response = .json (.cancelled
        ⟨result.orderId.value, result.seqId, result.wasAlreadyClosed⟩) := by
  cases outcome with
  | ok result => exact ⟨result, rfl, (Option.some.inj h).symm⟩
  | err error =>
      obtain rfl := Option.some.inj h
      cases error <;> cases hgood
  | panic => cases h

theorem ofAdmin_response {body : Nat → Body}
    {answer : Except AdminError Nat} {response : HttpResponse}
    (h : (Verdict.ofAdmin body answer).response? = some response)
    (hgood : response.isError = false) :
    ∃ n, answer = .ok n ∧ response = .json (body n) := by
  cases answer with
  | ok n => exact ⟨n, rfl, (Option.some.inj h).symm⟩
  | error error =>
      obtain rfl := Option.some.inj h
      cases hgood

/-- A mutating handler answers with success only what the log bears out. -/
theorem perform_confirmed {adminKey : String} {http : HttpRequest}
    {request : Request} (h : e.Inv False False noOrder)
    (honce : e.AtMostOnce) (hcause : e.ClosesForCause)
    (hcalls : http.Calls adminKey request)
    (hadmits : ∀ op ∈ request.op e, e.Admits op) {response : HttpResponse}
    (hresponse : (request.perform crypto e).2.response? = some response)
    (hgood : response.isError = false) :
    Confirmed crypto (request.perform crypto e).1.log http response := by
  cases hcalls with
  | postOrder order =>
      simp only [Request.perform] at hresponse ⊢
      cases houtcome : (e.processOrder crypto order.signed order.env).2 with
      | ok result =>
          rw [houtcome] at hresponse
          obtain rfl := Option.some.inj hresponse
          exact processOrder_confirmed h honce (hadmits _ rfl) houtcome
      | err error =>
          rw [houtcome] at hresponse
          obtain rfl := Option.some.inj hresponse
          cases hgood
      | panic =>
          rw [houtcome] at hresponse
          cases hresponse
  | deleteOrder traderId orderId wall =>
      obtain ⟨result, hok, rfl⟩ := ofCancel_response hresponse hgood
      obtain ⟨order, hwithdrawn, -, hid, htrader⟩ :=
        processCancel_withdrawn h hcause hok
      exact .deleteOrder hwithdrawn hid htrader
  | cancelByClientId traderId clientOrderId wall =>
      cases hrecord : e.sequencer.idempotencyCheck traderId clientOrderId with
      | none =>
          simp only [Request.perform, hrecord] at hresponse
          obtain rfl := Option.some.inj hresponse
          cases hgood
      | some record =>
          simp only [Request.perform, hrecord] at hresponse ⊢
          obtain ⟨result, hok, rfl⟩ := ofCancel_response hresponse hgood
          obtain ⟨order, hwithdrawn, horder, hid, htrader⟩ :=
            processCancel_withdrawn h hcause hok
          obtain ⟨order', horder', -, hclient, hid'⟩ :=
            idempotencyCheck_accepted h.toLogInv honce hrecord
          obtain rfl := h.legal.eq_of_orderId horder horder'
            (hid.trans hid'.symm)
          exact .cancelByClientId hwithdrawn hclient htrader
  | adminPauseMarket enabled marketId triggeredBy wall =>
      obtain ⟨seqId, hok, rfl⟩ := ofAdmin_response hresponse hgood
      exact .adminPauseMarket (switchMarket_confirmed hok)
  | adminResumeMarket enabled marketId triggeredBy wall =>
      obtain ⟨seqId, hok, rfl⟩ := ofAdmin_response hresponse hgood
      exact .adminResumeMarket (switchMarket_confirmed hok)
  | adminCancelAll enabled marketId wall =>
      obtain ⟨count, hok, rfl⟩ := ofAdmin_response hresponse hgood
      exact cancelAllOrders_confirmed h hok

theorem perform_grows (h : e.Inv False False noOrder) (request : Request)
    (hadmits : ∀ op ∈ request.op e, e.Admits op) :
    Grows e.log (request.perform crypto e).1.log := by
  have hcall : (request.perform crypto e).1 = (request.call crypto e).1 := by
    rw [Request.call_eq_perform]
  rw [hcall, Request.call]
  cases hop : request.op e with
  | none => exact ⟨List.prefix_refl _, h.legal, fun _ _ => rfl⟩
  | some op =>
      have hop' := hadmits op hop
      have hlegal : LegalLog False (e.apply crypto op).1.log :=
        (apply_inv h hop' False.elim False.elim).legal
      exact ⟨apply_log crypto hop', hlegal,
        fun order horder => matchedIn_apply h hop' horder⟩

end Performed

/-! ## Runs of the server -/

def HttpRequest.isMutating : HttpRequest → Bool
  | .postOrder .. | .deleteOrder .. | .cancelByClientId ..
  | .adminPauseMarket .. | .adminResumeMarket .. | .adminCancelAll .. => true
  | .getOrder .. | .getBook .. | .getTrades .. | .listMarkets => false

def Serving.Responds (http : HttpRequest) (response : HttpResponse) :
    Serving → Prop
  | .traded request result => request = http ∧ result.toResponse = response
  | .ended request answer => request = http ∧ answer = some response
  | _ => False

theorem responds_afterWork {request http : HttpRequest} {verdict : Verdict}
    {response : HttpResponse}
    (h : (Serving.afterWork request verdict).Responds http response) :
    request = http ∧ verdict.response? = some response := by
  cases verdict with
  | ordered result =>
      unfold Serving.afterWork at h
      dsimp only at h
      split at h
      · exact h
      · exact ⟨h.1, congrArg some h.2⟩
  | _ => exact h

theorem HttpRequest.call_of_work {adminKey : String} {http : HttpRequest}
    {work : Work} (hwork : http.work adminKey = .ok work)
    (hmutating : http.isMutating = true) : ∃ request, work = .call request := by
  have hkey : ∀ {xAdminKey called},
      (do requireAdminKey adminKey xAdminKey; pure (.call called) :
        Except HttpResponse Work) = .ok work →
          ∃ request, work = .call request := by
    intro xAdminKey called h
    cases hrequired : requireAdminKey adminKey xAdminKey with
    | error response => simp [hrequired, bind, Except.bind] at h
    | ok =>
        simp only [hrequired, bind, Except.bind, pure, Except.pure,
          Except.ok.injEq] at h
        exact ⟨called, h.symm⟩
  cases http with
  | postOrder order =>
      cases hwork
      exact ⟨_, rfl⟩
  | deleteOrder xTraderId orderId wall =>
      cases xTraderId with
      | none => cases hwork
      | some traderId =>
          cases hwork
          exact ⟨_, rfl⟩
  | cancelByClientId traderId clientOrderId wall =>
      cases hwork
      exact ⟨_, rfl⟩
  | adminPauseMarket xAdminKey marketId triggeredBy wall => exact hkey hwork
  | adminResumeMarket xAdminKey marketId triggeredBy wall => exact hkey hwork
  | adminCancelAll xAdminKey marketId wall => exact hkey hwork
  | _ => cases hmutating

namespace Service

variable {crypto : Crypto} {s s' : Service}

/-- The log bears out every successful response of a mutating route. -/
def Confirms (crypto : Crypto) (s : Service) : Prop :=
  ∀ i http response, (s.servings i).Responds http response →
    http.isMutating = true → response.isError = false →
      Confirmed crypto s.server.engine.log http response

theorem Effect.grows {i : Nat} {e' : Engine} {serving : Serving}
    {risk : RiskChecker} (h : Effect crypto s i e' serving risk)
    (hinv : s.server.engine.Inv False False noOrder)
    (hadmits : s.server.Admits i) : Grows s.server.engine.log e'.log := by
  have hrest : Grows s.server.engine.log s.server.engine.log :=
    ⟨List.prefix_refl _, hinv.legal, fun _ _ => rfl⟩
  cases h with
  | @work http work entered locked =>
      cases work with
      | call request =>
          unfold Server.Admits at hadmits
          rw [locked] at hadmits
          exact perform_grows hinv request hadmits
      | _ => exact hrest
  | _ => exact hrest

theorem Effect.confirmed {i : Nat} {e' : Engine} {serving : Serving}
    {risk : RiskChecker} (h : Effect crypto s i e' serving risk)
    (hfits : s.Fits) (hinv : s.server.engine.Inv False False noOrder)
    (honce : s.server.engine.AtMostOnce)
    (hcause : s.server.engine.ClosesForCause) (hadmits : s.server.Admits i)
    (hconfirms : s.Confirms crypto) {http : HttpRequest}
    {response : HttpResponse} (hresponds : serving.Responds http response)
    (hmutating : http.isMutating = true) (hgood : response.isError = false) :
    Confirmed crypto e'.log http response := by
  cases h with
  | turnAway idle refused => cases hresponds
  | enter idle admitted => cases hresponds
  | @work request work entered locked =>
      obtain ⟨rfl, hresponse⟩ := responds_afterWork hresponds
      have hi := hfits i
      rw [entered] at hi
      obtain ⟨called, rfl⟩ := HttpRequest.call_of_work hi.1 hmutating
      unfold Server.Admits at hadmits
      rw [locked] at hadmits
      exact perform_confirmed hinv honce hcause
        (HttpRequest.work_eq_call_iff.mp hi.1) hadmits hresponse hgood
  | @update request result traded =>
      refine hconfirms i http response ?_ hmutating hgood
      rw [traded]
      exact ⟨hresponds.1, Option.some.inj hresponds.2⟩
  | rest => exact hconfirms i http response hresponds hmutating hgood

theorem Confirms.step {label : Nat × ServiceAction}
    (h : s.Confirms crypto) (hfits : s.Fits)
    (hinv : s.server.engine.Inv False False noOrder)
    (honce : s.server.engine.AtMostOnce)
    (hcause : s.server.engine.ClosesForCause)
    (hstep : Step crypto s label s') : s'.Confirms crypto := by
  obtain ⟨i, action⟩ := label
  obtain ⟨hadmits, hstep⟩ := hstep
  have hmove := step_move hstep
  have heffect := hmove.effect hfits
  intro j http response hresponds hmutating hgood
  by_cases hj : j = i
  · subst hj
    exact heffect.confirmed hfits hinv honce hcause hadmits h hresponds
      hmutating hgood
  · rw [hmove.servings_of_ne hj] at hresponds
    exact (h j http response hresponds hmutating hgood).mono
      (heffect.grows hinv hadmits)

theorem Step.run_confirms {ops : List Op} {e : Engine} {risk : RiskChecker}
    {adminKey : String} {labels : List (Nat × ServiceAction)}
    (hstart : Run (ClobApi.Step crypto) .new ops e)
    (h : Run (Step crypto) (start e risk adminKey) labels s) :
    s.Confirms crypto := by
  induction h with
  | start => exact fun _ _ _ hresponds => by cases hresponds
  | next hrun hstep ih =>
      obtain ⟨ops, hengine⟩ := Step.run_engine hstart hrun
      exact ih.step (Step.run_fits hrun) (ClobApi.Step.run_inv hengine)
        (ClobApi.Step.run_atMostOnce hengine)
        (ClobApi.Step.run_closesForCause hengine) hstep

end Service

/--
In every run of the REST server a successful response of a mutating route keeps
its word in the log that has grown meanwhile.  A new order stands there under
the numbers of the response, and its fills, its filled quantity and its status
are those of all that the log ever matches for it; a retry repeats the numbers
of the first acceptance; a cancellation is in the log under its number, or the
log ends the order in another way; a pause, a resumption and the forced
cancellations are there as answered.
-/
theorem responses_confirmed {crypto : Crypto} {ops : List Op} {e : Engine}
    {risk : RiskChecker} {adminKey : String} {s : Service}
    {labels : List (Nat × ServiceAction)}
    (hstart : Run (Step crypto) .new ops e)
    (h : Run (Service.Step crypto) (.start e risk adminKey) labels s)
    {i : Nat} {http : HttpRequest} {response : HttpResponse}
    (hanswered : s.servings i = .ended http (some response))
    (hmutating : http.isMutating = true) (hgood : response.isError = false) :
    Confirmed crypto s.server.engine.log http response := by
  refine Service.Step.run_confirms hstart h i http response ?_ hmutating hgood
  rw [hanswered]
  exact ⟨rfl, rfl⟩

def Serving.ended? : Serving → Option (Bool × HttpResponse)
  | .ended http (some response) => some (http.isMutating, response)
  | _ => none

theorem Serving.ended?_eq_some {serving : Serving} {mutating : Bool}
    {response : HttpResponse}
    (h : serving.ended? = some (mutating, response)) :
    ∃ http, serving = .ended http (some response) ∧
      http.isMutating = mutating := by
  unfold ended? at h
  split at h
  · next http answer =>
      obtain ⟨rfl, rfl⟩ := Prod.mk.inj (Option.some.inj h)
      exact ⟨http, rfl, rfl⟩
  · cases h

theorem responses_confirmed_interleaved :
    ∃ s http body, Run (Service.Step Sample.crypto) Sample.openService
        Sample.interleaved s ∧
      s.servings 1 = .ended http (some ⟨201, .orderAccepted body⟩) ∧
      body.fillCount = 1 ∧
      Confirmed Sample.crypto s.server.engine.log http
        ⟨201, .orderAccepted body⟩ := by
  have hstate : (Sample.openService.runAll Sample.crypto
      Sample.interleaved).map (fun s => (s.servings 1).ended?) =
        some (some (true, ⟨201, .orderAccepted ⟨"bid",
          hexEncode Sample.bidHash.toList, .filled, 2, 1, 4, false⟩⟩)) := by
    decide +kernel
  obtain ⟨s, hs, hended⟩ := Option.map_eq_some_iff.mp hstate
  obtain ⟨http, hserving, hmutating⟩ := Serving.ended?_eq_some hended
  have hrun := Service.runAll_run hs
  exact ⟨s, http, _, hrun, hserving, rfl,
    responses_confirmed Sample.opened_run hrun hserving hmutating rfl⟩

end ClobApi
