import ClobApi.Engine.BooksPresent

/-!
# The books of every reachable state

Between two operations every book is well formed, and after completed
operations no book is crossed.
-/

namespace ClobApi

open Foundation

/-! ## Well-formed books -/

namespace OrderBook

def Live (order : Order) : Prop :=
  order.status = .open ∨ order.status = .partiallyFilled

/-- The two level maps and the order map describe one set of resting orders. -/
structure WellFormed (book : OrderBook) : Prop where
  noEmptyLevel : ∀ side (price : UInt64), (book.levels side)[price]? ≠ some []
  oncePerQueue : ∀ price side, (book.ordersAtPrice price side).Nodup
  oneQueue : ∀ {id price side price' side'},
    id ∈ book.ordersAtPrice price side →
    id ∈ book.ordersAtPrice price' side' → price = price' ∧ side = side'
  increasing : ∀ price side,
    (book.ordersAtPrice price side).Pairwise fun i j =>
      book.createdOf i < book.createdOf j
  queued_iff : ∀ {id price side}, id ∈ book.ordersAtPrice price side ↔
    ∃ order, book.get id = some order ∧ order.orderId = id ∧ order.side = side ∧
      order.priceTicks = price ∧ Live order
  live : ∀ {id order}, book.get id = some order → Live order →
    0 < order.remainingSizeLots ∧
      (order.status = .open ↔ order.filledSizeLots = 0)
  closed : ∀ {id order}, book.get id = some order →
    (∀ price side, id ∉ book.ordersAtPrice price side) → order.isClosed = true

theorem live_iff {order : Order} : Live order ↔ order.isClosed = false := by
  unfold Live Order.isClosed OrderStatus.isClosed
  cases order.status <;> simp

theorem Valid.wellFormed {book : OrderBook} (h : book.Valid) :
    book.WellFormed where
  noEmptyLevel := h.noEmpty
  oncePerQueue := h.queue_nodup
  oneQueue := by
    intro id price side price' side' hmem hmem'
    obtain ⟨order, hget, rfl, rfl, -⟩ := h.queued_iff.mp hmem
    obtain ⟨order', hget', rfl, rfl, -⟩ := h.queued_iff.mp hmem'
    obtain rfl := Option.some.inj (hget.symm.trans hget')
    exact ⟨rfl, rfl⟩
  increasing := h.fifo
  queued_iff := by
    intro id price side
    rw [h.queued_iff]
    refine exists_congr fun order => ⟨?_, ?_⟩
    · rintro ⟨hget, hside, hprice, hopen⟩
      exact ⟨hget, h.key hget, hside, hprice, live_iff.mpr hopen⟩
    · rintro ⟨hget, -, hside, hprice, hlive⟩
      exact ⟨hget, hside, hprice, live_iff.mp hlive⟩
  live := by
    intro id order hget hlive
    have hconsistent := h.consistent hget
    have hopen := live_iff.mp hlive
    exact ⟨UInt64.pos_iff_ne_zero.mpr (hconsistent.remaining_ne_zero hopen),
      hconsistent.open_iff hopen⟩
  closed := by
    intro id order hget hout
    by_contra hopen
    exact hout order.priceTicks order.side
      (h.queued_iff.mpr ⟨order, hget, rfl, rfl, by simpa using hopen⟩)

end OrderBook

section Reachable

variable {crypto : Crypto} {ops : List Op} {e : Engine}

theorem books_wellFormed (h : Run (Step crypto) .new ops e) {marketId : String}
    {book : OrderBook} (hbook : e.books.get? marketId = some book) :
    book.WellFormed :=
  ((Step.run_inv h).sync.valid hbook).wellFormed

theorem books_wellFormed_traded :
    ∃ book, (Sample.after Sample.traded).books.get? "BTC-USD" = some book ∧
      book.ordersAtPrice 100 .sell = [⟨"ask"⟩] ∧ book.WellFormed := by
  have hqueue : ((Sample.after Sample.traded).books.get? "BTC-USD").map
      (fun book => book.ordersAtPrice 100 .sell) = some [⟨"ask"⟩] := by
    decide +kernel
  obtain ⟨book, hbook, horders⟩ := Option.map_eq_some_iff.mp hqueue
  exact ⟨book, hbook, horders,
    books_wellFormed (Sample.traded_run.mono fun _ _ _ h => h.1) hbook⟩

/-! ## Uncrossed books -/

theorem price_resting {book : OrderBook} (h : book.Valid) {side : Side}
    {price : UInt64} (hmem : price ∈ book.pricesByPriority side) :
    ∃ order, book.Resting side order ∧ order.priceTicks = price := by
  obtain ⟨id, hid⟩ :=
    List.exists_mem_of_ne_nil _ ((h.mem_pricesByPriority side price).mp hmem)
  obtain ⟨order, hget, hside, hprice, hopen⟩ := h.queued_iff.mp hid
  exact ⟨order, h.resting_iff.mpr ⟨by rwa [h.key hget], hside, hopen⟩, hprice⟩

theorem bestBid_lt_bestAsk (h : Run (CompletedStep crypto) .new ops e)
    {marketId : String} {book : OrderBook}
    (hbook : e.books.get? marketId = some book) {bid ask : UInt64}
    (hbid : book.bestBid = some bid) (hask : book.bestAsk = some ask) :
    bid < ask := by
  have hinv := CompletedStep.run_inv h
  have hvalid := hinv.sync.valid hbook
  have hbidMem : bid ∈ book.pricesByPriority .buy :=
    List.mem_reverse.mpr (List.mem_of_getLast? hbid)
  have haskMem : ask ∈ book.pricesByPriority .sell := List.mem_of_head? hask
  obtain ⟨buy, hbuy, rfl⟩ := price_resting hvalid hbidMem
  obtain ⟨sell, hsell, rfl⟩ := price_resting hvalid haskMem
  exact hinv.sync.uncrossed trivial hbook buy sell hbuy hsell

theorem bestBid_lt_bestAsk_twoSided :
    ∃ book, (Sample.after Sample.twoSided).books.get? "BTC-USD" = some book ∧
      book.bestBid = some 95 ∧ book.bestAsk = some 100 ∧
        (95 : UInt64) < 100 := by
  have hbest : ((Sample.after Sample.twoSided).books.get? "BTC-USD").map
      (fun book => (book.bestBid, book.bestAsk)) =
        some (some 95, some 100) := by
    decide +kernel
  obtain ⟨book, hbook, hprices⟩ := Option.map_eq_some_iff.mp hbest
  obtain ⟨hbid, hask⟩ := Prod.mk.inj hprices
  exact ⟨book, hbook, hbid, hask,
    bestBid_lt_bestAsk (BasicStep.run_completed Sample.twoSided_run)
      hbook hbid hask⟩

end Reachable

end ClobApi
