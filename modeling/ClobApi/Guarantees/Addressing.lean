import ClobApi.Engine.Filing

/-!
# Accepted orders by their id

Lookups and cancellations find an order only in the book of its market.  Orders
that close on entry never get there, and recovery leaves the closed ones out.
-/

namespace ClobApi

open Foundation

namespace Engine

/-- The owner cancels an order: one event, and the order leaves its queue. -/
def CancelsOnce (e : Engine) (order : Order) : Prop :=
  ∀ wall, ∃ e', e.processCancel order.orderId order.traderId wall =
      (e', .ok ⟨order.orderId, some e.sequencer.nextSeqId, false⟩) ∧
    Writes wall e e'
      [.orderCancelled order.orderId order.orderHash .traderRequest] ∧
    ∀ marketId book price side, e'.books.get? marketId = some book →
      order.orderId ∉ book.ordersAtPrice price side

/--
The lookup finds the order as the log leaves it, and its owner can cancel it, or
learns that it is closed.
-/
def Addressable (e : Engine) (order : Order) : Prop :=
  ∃ live logged, e.getOrder order.orderId = some live ∧
    orderInLog e.log order.orderId = some logged ∧
    live.terms = order.terms ∧
    live.filledSizeLots = logged.filledSizeLots ∧
    live.status = logged.status ∧
    (logged.isClosed = false → e.CancelsOnce order) ∧
    (logged.isClosed = true → ∀ wall,
      e.processCancel order.orderId order.traderId wall =
        (e, .ok ⟨order.orderId, none, true⟩))

end Engine

section Cancel

variable {e : Engine} {order live : Order}

theorem processCancel_of_stored
    (hindex : e.orderMarketIndex.get? order.orderId =
      some order.marketId.value)
    (hstored : storedOrder e.books order.marketId.value order.orderId =
      some live) (htrader : live.traderId = order.traderId)
    (wall : Nat → UInt64) :
    if live.isClosed then
      e.processCancel order.orderId order.traderId wall =
        (e, .ok ⟨order.orderId, none, true⟩)
    else ∃ e', e.processCancel order.orderId order.traderId wall =
        (e', .ok ⟨order.orderId, some e.sequencer.nextSeqId, false⟩) ∧
      Writes wall e e'
        [.orderCancelled order.orderId live.orderHash .traderRequest] := by
  obtain ⟨book, hbook, hget⟩ := storedOrder_eq_some.mp hstored
  unfold Engine.processCancel
  simp only [hindex, hbook, hget, htrader, ne_eq, not_true_eq_false, if_false]
  cases live.isClosed with
  | true => rfl
  | false => exact ⟨_, rfl, rfl, rfl⟩

theorem cancelled_unqueued (h : e.Inv False True noOrder)
    (hview : (orderInLog e.log order.orderId).any Order.isClosed = true)
    {marketId : String} {book : OrderBook} (price : UInt64) (side : Side)
    (hbook : e.books.get? marketId = some book) :
    order.orderId ∉ book.ordersAtPrice price side := by
  intro hqueued
  obtain ⟨live, hget, -, -, hopen⟩ :=
    (h.sync.valid hbook).queued_iff.mp hqueued
  obtain ⟨logged, hlogged, hmatches⟩ :=
    h.sync.stored (storedOrder_eq_some.mpr ⟨book, hbook, hget⟩)
  rw [hlogged, Option.any_some,
    Order.isClosed_eq_of_core (hmatches.core trivial), hopen] at hview
  cases hview

theorem addressable_of_stored (h : e.Inv False True noOrder)
    (hmem : order ∈ accepted e.log)
    (hstored : storedOrder e.books order.marketId.value order.orderId =
      some live) : e.Addressable order := by
  obtain ⟨logged, hlogged, hmatches⟩ := h.sync.stored hstored
  obtain ⟨logged', hlogged', hterms⟩ := h.legal.accepted_view hmem
  obtain rfl := Option.some.inj (hlogged.symm.trans hlogged')
  have hcore : logged.core = live.core := hmatches.core trivial
  have hliveTerms : live.terms = order.terms :=
    (Order.terms_eq_of_core hcore).symm.trans hterms
  have htrader : live.traderId = order.traderId := by
    simpa using congrArg Order.traderId hliveTerms
  have hhash : live.orderHash = order.orderHash := by
    simpa using congrArg Order.orderHash hliveTerms
  have hmarket : logged.marketId = order.marketId := by
    simpa using congrArg Order.marketId hterms
  have hindex : e.orderMarketIndex.get? order.orderId =
      some order.marketId.value := by
    rw [h.index, hlogged, Option.map_some, hmarket]
  have hclosed := Order.isClosed_eq_of_core hcore
  refine ⟨live, logged, ?_, hlogged, hliveTerms, ?_, ?_, fun hopen wall => ?_,
    fun hdone wall => ?_⟩
  · exact (findOrder_eq h hmem).trans hstored
  · exact (Order.filledSizeLots_eq_of_facts hmatches.facts).symm
  · simpa [Order.core] using (congrArg Order.status hcore).symm
  · have hcancel := processCancel_of_stored hindex hstored htrader wall
    rw [← hclosed, hopen] at hcancel
    obtain ⟨e', hdone, hwrites⟩ := hcancel
    rw [hhash] at hwrites
    refine ⟨e', hdone, hwrites, fun marketId book price side hbook => ?_⟩
    have hinv := processCancel_inv h order.orderId order.traderId wall
    rw [hdone] at hinv
    refine cancelled_unqueued hinv ?_ price side hbook
    rw [hwrites.log, numbered, numbered, orderInLog_append, viewStep_cancel,
      if_pos rfl, hlogged]
    rfl
  · have hcancel := processCancel_of_stored hindex hstored htrader wall
    rw [← hclosed, hdone] at hcancel
    exact hcancel

end Cancel

/--
An accepted order stays addressable exactly as long as the last operation that
filed it has put it into a book.
-/
theorem addressable_iff {crypto : Crypto} {ops : List Op} {e : Engine}
    (h : Run (TradingStep crypto) .new ops e) {order : Order}
    (hmem : order ∈ accepted e.log) :
    e.Addressable order ↔
      (Engine.new.filings crypto order.orderId ops).getLast? = some true := by
  have hinv := TradingStep.run_inv h
  rw [← Step.run_held (h.mono fun _ _ _ hstep => hstep.1),
    held_iff_stored hinv hmem]
  constructor
  · rintro ⟨live, logged, hfound, -⟩
    exact ⟨live, (findOrder_eq hinv hmem).symm.trans hfound⟩
  · rintro ⟨live, hstored⟩
    exact addressable_of_stored hinv hmem hstored

namespace Sample

theorem trading_recovering {ops : List Op}
    (h : Run (BasicStep crypto) .new ops (after ops)) :
    Run (TradingStep crypto) .new (recovering ops) (after (recovering ops)) :=
  .next (h.mono fun _ _ _ hstep => ⟨hstep.1, Op.isTrading_of_isBasic hstep.2⟩)
    ⟨⟨rfl, apply_restore ops⟩, rfl⟩

theorem traded_addressable :
    (after (recovering traded)).Addressable askOrder ↔
      (Engine.new.filings crypto ⟨"ask"⟩ (recovering traded)).getLast? =
        some true := by
  have hmem : askOrder ∈ accepted (after (recovering traded)).log := by
    rw [recovering_log, traded_log.1]
    decide
  exact addressable_iff (trading_recovering traded_run) hmem

/-- An order that is filled on entry cannot be looked up. -/
theorem traded_bid_unknown :
    Run (TradingStep crypto) .new traded (after traded) ∧
      bidOrder ∈ accepted (after traded).log ∧
      (after traded).getOrder ⟨"bid"⟩ = none ∧
      ((after traded).processCancel ⟨"bid"⟩ bid.traderId wall).2 =
        .err (.notFound "bid") ∧
      ¬ (after traded).Addressable bidOrder := by
  have hnone : (after traded).getOrder ⟨"bid"⟩ = none := by
    decide +kernel
  refine ⟨traded_run.mono fun _ _ _ hstep =>
      ⟨hstep.1, Op.isTrading_of_isBasic hstep.2⟩, ?_, hnone,
    by decide +kernel, ?_⟩
  · rw [traded_log.1]
    decide
  · rintro ⟨live, logged, hfound, -⟩
    have hsome : (after traded).getOrder ⟨"bid"⟩ = some live := hfound
    rw [hnone] at hsome
    cases hsome

end Sample

end ClobApi
