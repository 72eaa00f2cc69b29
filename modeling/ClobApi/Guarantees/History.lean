import ClobApi.Engine.BooksPresent
import ClobApi.Replay.FillSums

/-!
# The log as a valid order history

In runs that only submit, cancel, pause and resume, every fill and every
cancellation in the log concerns orders that were accepted before it and were
still open; what closes an order is read off the events alone.
-/

namespace ClobApi

open Foundation

def CancelledIn (log : List SequencedEvent) (id : OrderId) : Prop :=
  ∃ se ∈ log, ∃ hash reason, se.event = .orderCancelled id hash reason

def ClosedIn (log : List SequencedEvent) (order : Order) : Prop :=
  CancelledIn log order.orderId ∨
    order.origSizeLots.toNat ≤ filledInLog log order.orderId

def Event.Names (id : OrderId) : Event → Prop
  | .orderAccepted order => order.orderId = id
  | .fill trade => trade.takerOrderId = id ∨ trade.makerOrderId = id
  | .orderCancelled orderId _ _ => orderId = id
  | .orderRejected .. | .marketPaused .. | .marketResumed .. => False

structure ValidFill (log : List SequencedEvent) (fill : Fill)
    (taker maker : Order) : Prop where
  takerAccepted : taker ∈ accepted log
  makerAccepted : maker ∈ accepted log
  takerId : taker.orderId = fill.takerOrderId
  makerId : maker.orderId = fill.makerOrderId
  takerMarket : taker.marketId = fill.marketId
  makerMarket : maker.marketId = fill.marketId
  side : maker.side = taker.side.opposite
  trader : maker.traderId ≠ taker.traderId
  price : fill.priceTicks = maker.priceTicks
  limit : taker.Crosses fill.priceTicks
  positive : 0 < fill.sizeLots
  takerOpen : ¬ ClosedIn log taker
  makerOpen : ¬ ClosedIn log maker

structure ValidNext (log : List SequencedEvent) (event : Event) : Prop where
  fill : ∀ trade, event = .fill trade →
    ∃ taker maker, ValidFill log trade taker maker
  cancel : ∀ id hash reason, event = .orderCancelled id hash reason →
    ∃ order ∈ accepted log, order.orderId = id ∧ order.orderHash = hash ∧
      ¬ ClosedIn log order
  named : ∀ order ∈ accepted log, ClosedIn log order →
    ¬ event.Names order.orderId

theorem cancelOrder_isClosed (seqId : Nat) (reason : CancelReason)
    (order : Order) :
    (Replay.cancelOrder seqId reason order).isClosed = true := by
  cases reason <;> rfl

section Legal

variable {strict : Prop} {log : List SequencedEvent} {event : Event}

theorem cancelledIn_append {se : SequencedEvent} {id : OrderId} :
    CancelledIn (log ++ [se]) id ↔
      CancelledIn log id ∨ ∃ hash reason,
        se.event = .orderCancelled id hash reason := by
  simp [CancelledIn, or_and_right, exists_or]

theorem LegalLog.cancelledIn_isSome (h : LegalLog strict log) {id : OrderId}
    (hcancelled : CancelledIn log id) : (orderInLog log id).isSome = true := by
  induction h with
  | nil => simp [CancelledIn] at hcancelled
  | append timestampMs init last ih =>
      rw [orderInLog_append]
      rcases cancelledIn_append.mp hcancelled with hold | ⟨hash, reason, hev⟩
      · exact viewStep_isSome (ih hold)
      · cases last with
        | orderCancelled hold live =>
            cases hev
            exact viewStep_isSome (by rw [hold]; rfl)
        | _ => cases hev

theorem LegalLog.not_cancelledIn (h : LegalLog True log) {id : OrderId}
    {order : Order} (hview : orderInLog log id = some order)
    (hopen : order.isClosed = false) : ¬ CancelledIn log id := by
  induction h generalizing order with
  | nil => cases hview
  | append timestampMs init last ih =>
      rw [cancelledIn_append, not_or]
      rw [orderInLog_append] at hview
      cases last with
      | @orderAccepted new fresh status unfilled positive created =>
          refine ⟨?_, by simp⟩
          simp only [viewStep] at hview
          split at hview
          · next hid =>
              subst hid
              intro hcancelled
              have hsome := init.cancelledIn_isSome hcancelled
              rw [fresh] at hsome
              cases hsome
          · exact ih hview hopen
      | @fill fill taker maker htaker hmaker legal =>
          refine ⟨?_, by simp⟩
          rw [viewStep_fill legal.distinct] at hview
          split at hview
          · next hid =>
              rcases hid with rfl | rfl
              · exact ih htaker (legal.live trivial).1
              · exact ih hmaker (legal.live trivial).2
          · exact ih hview hopen
      | @orderCancelled cancelled old reason hold live =>
          rw [viewStep_cancel] at hview
          split at hview
          · obtain ⟨before, -, rfl⟩ := Option.map_eq_some_iff.mp hview
            rw [cancelOrder_isClosed] at hopen
            cases hopen
          · next hid =>
              refine ⟨ih hview hopen, ?_⟩
              rintro ⟨hash, reason', hev⟩
              cases hev
              exact hid rfl
      | marketPaused => exact ⟨ih hview hopen, by simp⟩
      | marketResumed => exact ⟨ih hview hopen, by simp⟩

theorem LegalLog.not_closedIn (h : LegalLog True log) {order logged : Order}
    (hmem : order ∈ accepted log)
    (hview : orderInLog log order.orderId = some logged)
    (hopen : logged.isClosed = false) : ¬ ClosedIn log order := by
  rintro (hcancelled | hfull)
  · exact h.not_cancelledIn hview hopen hcancelled
  · obtain ⟨logged', hview', hterms⟩ := h.accepted_view hmem
    obtain rfl := Option.some.inj (hview.symm.trans hview')
    have hsize : logged.origSizeLots = order.origSizeLots := by
      simpa using congrArg Order.origSizeLots hterms
    have hlt := UInt64.lt_iff_toNat_lt.mp
      ((h.loggedOrder hview).consistent.filled_lt hopen)
    rw [h.filledSizeLots_toNat hview, hsize] at hlt
    omega

structure OpenAccepted (log : List SequencedEvent) (id : OrderId)
    (logged order : Order) : Prop where
  accepted : order ∈ accepted log
  orderId : order.orderId = id
  terms : logged.terms = order.terms
  notClosed : ¬ ClosedIn log order

theorem LegalLog.openAccepted (h : LegalLog True log) {id : OrderId}
    {logged : Order} (hview : orderInLog log id = some logged)
    (hopen : logged.isClosed = false) :
    ∃ order, OpenAccepted log id logged order := by
  obtain ⟨order, hmem, rfl, hterms⟩ := orderInLog_accepted hview
  exact ⟨order, hmem, rfl, hterms, h.not_closedIn hmem hview hopen⟩

section OpenAccepted

variable {id : OrderId} {logged order : Order}
  (h : OpenAccepted log id logged order)
include h

theorem OpenAccepted.orderHash : logged.orderHash = order.orderHash := by
  simpa using congrArg Order.orderHash h.terms

theorem OpenAccepted.marketId : logged.marketId = order.marketId := by
  simpa using congrArg Order.marketId h.terms

theorem OpenAccepted.traderId : logged.traderId = order.traderId := by
  simpa using congrArg Order.traderId h.terms

theorem OpenAccepted.side : logged.side = order.side := by
  simpa using congrArg Order.side h.terms

theorem OpenAccepted.priceTicks : logged.priceTicks = order.priceTicks := by
  simpa using congrArg Order.priceTicks h.terms

theorem OpenAccepted.crosses {price : UInt64} :
    logged.Crosses price ↔ order.Crosses price := by
  unfold Order.Crosses
  rw [h.side, h.priceTicks]

end OpenAccepted

theorem LegalEvent.not_names (h : LegalEvent True log event)
    (hlog : LegalLog True log) {order : Order} (hmem : order ∈ accepted log)
    (hclosed : ClosedIn log order) : ¬ event.Names order.orderId := by
  -- the view of an open order contradicts the closing
  have hview : ∀ {logged}, orderInLog log order.orderId = some logged →
      logged.isClosed = false → False := fun hview hopen =>
    hlog.not_closedIn hmem hview hopen hclosed
  cases h with
  | orderAccepted fresh =>
      rintro hid
      have hsome := orderInLog_isSome hmem
      rw [← hid, fresh] at hsome
      cases hsome
  | fill htaker hmaker legal =>
      obtain ⟨htakerOpen, hmakerOpen⟩ := legal.live trivial
      rintro (hid | hid)
      · exact hview (hid ▸ htaker) htakerOpen
      · exact hview (hid ▸ hmaker) hmakerOpen
  | orderCancelled hold live =>
      rintro hid
      exact hview (hid ▸ hold) (live trivial)
  | marketPaused => exact id
  | marketResumed => exact id

theorem LegalEvent.validFill {fill : Fill}
    (h : LegalEvent True log (.fill fill)) (hlog : LegalLog True log) :
    ∃ taker maker, ValidFill log fill taker maker := by
  cases h with
  | fill htakerView hmakerView legal =>
      obtain ⟨htakerOpen, hmakerOpen⟩ := legal.live trivial
      obtain ⟨taker, htaker⟩ := hlog.openAccepted htakerView htakerOpen
      obtain ⟨maker, hmaker⟩ := hlog.openAccepted hmakerView hmakerOpen
      exact ⟨taker, maker, {
        takerAccepted := htaker.accepted
        makerAccepted := hmaker.accepted
        takerId := htaker.orderId
        makerId := hmaker.orderId
        takerMarket := htaker.marketId.symm.trans legal.takerMarket
        makerMarket := hmaker.marketId.symm.trans legal.makerMarket
        side := by rw [← hmaker.side, ← htaker.side, legal.side]
        trader := by
          rw [← hmaker.traderId, ← htaker.traderId]
          exact legal.trader
        price := legal.price.trans hmaker.priceTicks
        limit := htaker.crosses.mp legal.crosses
        positive := UInt64.pos_iff_ne_zero.mpr legal.positive
        takerOpen := htaker.notClosed
        makerOpen := hmaker.notClosed }⟩

theorem LegalEvent.validNext (h : LegalEvent True log event)
    (hlog : LegalLog True log) : ValidNext log event where
  fill := by
    rintro trade rfl
    exact h.validFill hlog
  cancel := by
    rintro id hash reason rfl
    cases h with
    | orderCancelled hold live =>
        obtain ⟨order, horder⟩ := hlog.openAccepted hold (live trivial)
        exact ⟨order, horder.accepted, horder.orderId, horder.orderHash.symm,
          horder.notClosed⟩
  named := fun _ hmem hclosed => h.not_names hlog hmem hclosed

end Legal

/--
The log of a fresh engine that only submits, cancels, pauses and resumes is a
valid order history: each of its events is valid after the events before it.
-/
theorem log_validHistory {crypto : Crypto} {ops : List Op} {e : Engine}
    (h : Run (BasicStep crypto) .new ops e) {before after : List SequencedEvent}
    {se : SequencedEvent} (hlog : e.log = before ++ se :: after) :
    ValidNext before se.event := by
  obtain ⟨hbefore, hevent⟩ := (BasicStep.run_inv h).1.legal.split hlog
  exact hevent.validNext hbefore

theorem log_validHistory_traded :
    ValidNext [⟨1, 2000, .orderAccepted Sample.askOrder⟩,
      ⟨2, 2000, .orderAccepted Sample.bidOrder⟩]
      (.fill (makeFill Sample.bidOrder Sample.askOrder 100 4 2 2000)) := by
  have hlog : (Sample.after Sample.traded).log =
      [⟨1, 2000, .orderAccepted Sample.askOrder⟩,
        ⟨2, 2000, .orderAccepted Sample.bidOrder⟩] ++
        ⟨3, 2000, .fill
          (makeFill Sample.bidOrder Sample.askOrder 100 4 2 2000)⟩ :: [] :=
    Sample.traded_log.1
  exact log_validHistory Sample.traded_run hlog

end ClobApi
