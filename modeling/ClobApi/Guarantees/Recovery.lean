import ClobApi.Engine.BooksPresent
import ClobApi.Snapshot

/-!
# Recovery

Replay of the engine's own log gives back its state store, so that every
snapshot loads, and, in runs that only submit, cancel, pause and resume, its
books.
-/

namespace ClobApi

open Foundation

/-! ## The state store -/

theorem Engine.LogInv.loads {basic : Prop} {e : Engine} (h : e.LogInv basic)
    (crypto : Crypto) (shuffle : Shuffle Order) (nowMs : UInt64) :
    ∃ result, replay shuffle e.log = .ok result ∧ result.state.Agrees e.state ∧
      loadSnapshot crypto shuffle
          (createSnapshot nowMs e.log e.listMarkets (e.state.checksum crypto)) =
        .ok (result, e.listMarkets,
          (e.log.getLast?.map SequencedEvent.seqId).getD 0) := by
  obtain ⟨orders, -, hreplay⟩ := h.legal.replay_ok shuffle
  exact ⟨_, hreplay, h.state.symm,
    loadSnapshot_createSnapshot crypto hreplay h.state.symm nowMs
      e.listMarkets⟩

/--
In every run, replay of the engine's log succeeds with the entries of the live
state store, and a snapshot taken from the engine loads with its markets and its
last sequence number.
-/
theorem snapshot_loads {crypto : Crypto} {ops : List Op} {e : Engine}
    (h : Run (Step crypto) .new ops e) (shuffle : Shuffle Order)
    (nowMs : UInt64) :
    ∃ result, replay shuffle e.log = .ok result ∧ result.state.Agrees e.state ∧
      loadSnapshot crypto shuffle
          (createSnapshot nowMs e.log e.listMarkets (e.state.checksum crypto)) =
        .ok (result, e.listMarkets,
          (e.log.getLast?.map SequencedEvent.seqId).getD 0) :=
  (Step.run_inv h).toLogInv.loads crypto shuffle nowMs

theorem snapshot_loads_recovering :
    ∃ result, loadSnapshot Sample.crypto .id
        (createSnapshot 3000
          (Sample.after (Sample.recovering Sample.traded)).log
          (Sample.after (Sample.recovering Sample.traded)).listMarkets
          ((Sample.after (Sample.recovering Sample.traded)).state.checksum
            Sample.crypto)) =
      .ok (result,
        (Sample.after (Sample.recovering Sample.traded)).listMarkets, 3) := by
  obtain ⟨result, -, -, hload⟩ := snapshot_loads
    (Sample.recovering_run (Sample.traded_run.mono fun _ _ _ h => h.1)) .id 3000
  refine ⟨result, hload.trans ?_⟩
  rw [Sample.recovering_log, Sample.traded_log.1]
  rfl

/-! ## The books -/

/--
Valid books whose live orders agree have the same price levels and queues.
-/
theorem levels_eq_of_live {book book' : OrderBook} (hvalid : book.Valid)
    (hvalid' : book'.Valid)
    (hlive : ∀ {id order}, book.get id = some order → order.isClosed = false →
      ∃ order', book'.get id = some order' ∧ order'.core = order.core)
    (hlive' : ∀ {id order'}, book'.get id = some order' →
      order'.isClosed = false →
        ∃ order, book.get id = some order ∧ order'.core = order.core)
    (side : Side) :
    book'.levels side = book.levels side := by
  have hmem : ∀ price id, id ∈ book'.ordersAtPrice price side ↔
      id ∈ book.ordersAtPrice price side := by
    intro price id
    rw [hvalid.queued_iff, hvalid'.queued_iff]
    constructor
    · rintro ⟨order', hget', rfl, rfl, hopen'⟩
      obtain ⟨order, hget, hcore⟩ := hlive' hget' hopen'
      have hterms := Order.terms_eq_of_core hcore
      exact ⟨order, hget, by simpa using (congrArg Order.side hterms).symm,
        by simpa using (congrArg Order.priceTicks hterms).symm,
        (Order.isClosed_eq_of_core hcore).symm.trans hopen'⟩
    · rintro ⟨order, hget, rfl, rfl, hopen⟩
      obtain ⟨order', hget', hcore⟩ := hlive hget hopen
      have hterms := Order.terms_eq_of_core hcore
      exact ⟨order', hget', by simpa using congrArg Order.side hterms,
        by simpa using congrArg Order.priceTicks hterms,
        (Order.isClosed_eq_of_core hcore).trans hopen⟩
  have hcreated : ∀ {price id}, id ∈ book'.ordersAtPrice price side →
      book'.createdOf id = book.createdOf id := by
    intro price id hid
    obtain ⟨order', hget', -, -, hopen'⟩ := hvalid'.queued_iff.mp hid
    obtain ⟨order, hget, hcore⟩ := hlive' hget' hopen'
    rw [OrderBook.createdOf_eq hget, OrderBook.createdOf_eq hget']
    simpa using congrArg Order.createdSequence (Order.terms_eq_of_core hcore)
  refine QueueMap.ext_queue (hvalid'.noEmpty side) (hvalid.noEmpty side)
    fun price => ?_
  refine eq_of_pairwise_lt_of_mem_iff book.createdOf ?_ (hvalid.fifo price side)
    (hmem price)
  refine (hvalid'.fifo price side).imp_of_mem fun hi hj hlt => ?_
  rwa [← hcreated hi, ← hcreated hj]

theorem Order.eq_of_core {order order' : Order} (h : order.core = order'.core) :
    order = { order' with lastUpdateSequence := order.lastUpdateSequence } := by
  cases order
  cases order'
  simpa [Order.core] using h

section Rebuilt

variable {e : Engine} {orders : HashMap OrderId Order}
  (h : e.Inv True True noOrder)
  (horders : ∀ id, orders.get? id = orderInLog e.log id)
  (shuffle : Shuffle Order) {marketId : String} {id : OrderId}

include h horders

theorem rebuilt_of_live {live : Order}
    (hget : (bookAt e.books marketId).get id = some live)
    (hopen : live.isClosed = false) :
    ∃ rebuilt, (bookAt (Replay.buildBooks shuffle orders) marketId).get id =
      some rebuilt ∧ rebuilt.core = live.core := by
  rw [get_bookAt] at hget
  obtain ⟨logged, hview, hmatches⟩ := h.sync.stored hget
  have hcore := hmatches.core trivial
  refine ⟨logged,
    ((buildBooks_book h.legal horders shuffle marketId).2 id logged).mpr
    ⟨hview, ?_, hmatches.logged_market⟩, hcore⟩
  rw [Order.isClosed_eq_of_core hcore, hopen]

theorem live_of_rebuilt {rebuilt : Order}
    (hget : (bookAt (Replay.buildBooks shuffle orders) marketId).get id =
      some rebuilt) :
    ∃ live, (bookAt e.books marketId).get id = some live ∧
      rebuilt.core = live.core := by
  obtain ⟨hview, hopen, rfl⟩ :=
    ((buildBooks_book h.legal horders shuffle marketId).2 id rebuilt).mp hget
  obtain ⟨live, hlive, hcore⟩ := h.sync.covered trivial hview hopen not_false
  exact ⟨live, by rwa [get_bookAt], hcore.symm⟩

end Rebuilt

theorem Engine.Inv.bookAt_valid {completed basic : Prop} {e : Engine}
    (h : e.Inv completed basic noOrder) (marketId : String) :
    (bookAt e.books marketId).Valid := by
  unfold bookAt
  cases hbook : e.books.get? marketId with
  | none => exact OrderBook.new_valid
  | some book => exact h.sync.valid hbook

/--
In a run without forced cancellations and recovery, replay of the log gives
every market the price levels and queues of its live book, and every queued
order with the fields of the live one up to its last update.
-/
theorem replay_rebuilds_books {crypto : Crypto} {ops : List Op} {e : Engine}
    (h : Run (BasicStep crypto) .new ops e) (shuffle : Shuffle Order) :
    ∃ result, replay shuffle e.log = .ok result ∧ ∀ marketId,
      (∀ side, (bookAt result.books marketId).levels side =
        (bookAt e.books marketId).levels side) ∧
      ∀ price side id, id ∈ (bookAt e.books marketId).ordersAtPrice price side →
        ∃ live rebuilt, (bookAt e.books marketId).get id = some live ∧
          (bookAt result.books marketId).get id = some rebuilt ∧
          rebuilt =
            { live with lastUpdateSequence := rebuilt.lastUpdateSequence } := by
  have hinv := (BasicStep.run_inv h).1
  obtain ⟨orders, horders, hreplay⟩ := hinv.legal.replay_ok shuffle
  refine ⟨_, hreplay,
    fun marketId => ⟨fun side => ?_, fun price side id hmem => ?_⟩⟩
  · exact levels_eq_of_live (hinv.bookAt_valid marketId)
      (buildBooks_book hinv.legal horders shuffle marketId).1
      (fun hget hopen => rebuilt_of_live hinv horders shuffle hget hopen)
      (fun hget _ => live_of_rebuilt hinv horders shuffle hget) side
  · obtain ⟨live, hget, -, -, hopen⟩ :=
      (hinv.bookAt_valid marketId).queued_iff.mp hmem
    obtain ⟨rebuilt, hrebuilt, hcore⟩ :=
      rebuilt_of_live hinv horders shuffle hget hopen
    exact ⟨live, rebuilt, hget, hrebuilt, Order.eq_of_core hcore⟩

theorem replay_rebuilds_books_traded :
    ∃ result, replay .id Sample.tradedLog = .ok result ∧
      (bookAt result.books "BTC-USD").levels .sell =
        (bookAt (Sample.after Sample.traded).books "BTC-USD").levels .sell := by
  obtain ⟨result, hreplay, hbooks⟩ :=
    replay_rebuilds_books Sample.traded_run .id
  rw [Sample.traded_log.1] at hreplay
  exact ⟨result, hreplay, (hbooks "BTC-USD").1 .sell⟩

end ClobApi
