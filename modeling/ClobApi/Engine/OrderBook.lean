import ClobApi.Domain.Order
import ClobApi.Foundation.Collections

/-!
# The order book of one market

Price levels are sorted maps from a price to the queue of resting order ids;
the full orders, closed ones included, are kept by id.
-/

namespace ClobApi

open Foundation

abbrev Levels := Std.ExtTreeMap UInt64 (List OrderId)

structure OrderBook where
  bids : Levels
  asks : Levels
  orders : HashMap OrderId Order

structure PriceLevel where
  price : UInt64
  totalQty : UInt64
  orderCount : Nat
  deriving DecidableEq, Repr

namespace OrderBook

def new : OrderBook := ⟨∅, ∅, .empty⟩

/-- The map that `match side { Buy => bids, Sell => asks }` selects. -/
def levels (book : OrderBook) : Side → Levels
  | .buy => book.bids
  | .sell => book.asks

def updateLevels (book : OrderBook) (side : Side) (f : Levels → Levels) :
    OrderBook :=
  match side with
  | .buy => { book with bids := f book.bids }
  | .sell => { book with asks := f book.asks }

/-! ## Reads -/

def get (book : OrderBook) (id : OrderId) : Option Order := book.orders.get? id

def bestBid (book : OrderBook) : Option UInt64 := book.bids.keys.getLast?

def bestAsk (book : OrderBook) : Option UInt64 := book.asks.keys.head?

def askPricesAsc (book : OrderBook) : List UInt64 := book.asks.keys

def bidPricesDesc (book : OrderBook) : List UInt64 := book.bids.keys.reverse

def ordersAtPrice (book : OrderBook) (price : UInt64) (side : Side) :
    List OrderId :=
  QueueMap.queue (book.levels side) price

/-- The row of `l2_bids` and `l2_asks` for one entry of a level map. -/
def priceLevel (book : OrderBook) (level : UInt64 × List OrderId) :
    PriceLevel where
  price := level.1
  totalQty :=
    ((level.2.filterMap book.get).map Order.remainingSizeLots).foldl (· + ·) 0
  orderCount := level.2.length

def l2Bids (book : OrderBook) (depth : Nat) : List PriceLevel :=
  (book.bids.toList.reverse.take depth).map book.priceLevel

def l2Asks (book : OrderBook) (depth : Nat) : List PriceLevel :=
  (book.asks.toList.take depth).map book.priceLevel

/-! ## Writes -/

def insert (book : OrderBook) (order : Order) : OrderBook :=
  { book with orders := book.orders.insert order.orderId order }.updateLevels
    order.side fun levels =>
      QueueMap.pushBack levels order.priceTicks order.orderId

def removeFromQueueInner (book : OrderBook) (id : OrderId) : OrderBook :=
  match book.get id with
  | none => book
  | some order =>
      book.updateLevels order.side fun levels =>
        QueueMap.remove levels order.priceTicks id

def removeFromQueue (book : OrderBook) (id : OrderId) : OrderBook :=
  book.removeFromQueueInner id

def modify (book : OrderBook) (id : OrderId) (f : Order → Order) : OrderBook :=
  { book with orders := book.orders.modify id f }

def cancelWithStatus (book : OrderBook) (id : OrderId) (status : OrderStatus) :
    OrderBook × Bool :=
  match book.get id with
  | none => (book, false)
  | some order =>
      if order.isClosed then (book, false)
      else
        ((book.modify id fun order =>
          { order with status }).removeFromQueueInner id, true)

def cancel (book : OrderBook) (id : OrderId) : OrderBook × Bool :=
  book.cancelWithStatus id .cancelled

/-! ## What the writes do to the reads -/

theorem levels_updateLevels (book : OrderBook) (side side' : Side)
    (f : Levels → Levels) :
    (book.updateLevels side f).levels side' =
      if side' = side then f (book.levels side') else book.levels side' := by
  cases side <;> cases side' <;> rfl

@[simp] theorem get_updateLevels (book : OrderBook) (side : Side)
    (f : Levels → Levels) (id : OrderId) :
    (book.updateLevels side f).get id = book.get id := by
  cases side <;> rfl

theorem get_insert (book : OrderBook) (order : Order) (id : OrderId) :
    (book.insert order).get id =
      if id = order.orderId then some order else book.get id := by
  simp only [insert, get_updateLevels]
  exact HashMap.get?_insert _ _ _ _

theorem levels_insert (book : OrderBook) (order : Order) (side : Side) :
    (book.insert order).levels side =
      if side = order.side then
        QueueMap.pushBack (book.levels side) order.priceTicks order.orderId
      else book.levels side := by
  simp only [insert, levels_updateLevels]
  cases side <;> rfl

theorem ordersAtPrice_insert (book : OrderBook) (order : Order) (price : UInt64)
    (side : Side) :
    (book.insert order).ordersAtPrice price side =
      if side = order.side ∧ price = order.priceTicks then
        book.ordersAtPrice price side ++ [order.orderId]
      else book.ordersAtPrice price side := by
  unfold ordersAtPrice
  rw [levels_insert]
  by_cases hside : side = order.side
  · by_cases hprice : price = order.priceTicks
    · simp [hside, hprice, QueueMap.queue_pushBack]
    · simp [hside, hprice, QueueMap.queue_pushBack]
  · simp [hside]

@[simp] theorem ordersAtPrice_modify (book : OrderBook) (id : OrderId)
    (f : Order → Order) (price : UInt64) (side : Side) :
    (book.modify id f).ordersAtPrice price side =
      book.ordersAtPrice price side := by
  cases side <;> rfl

@[simp] theorem levels_modify (book : OrderBook) (id : OrderId)
    (f : Order → Order) (side : Side) :
    (book.modify id f).levels side = book.levels side := by
  cases side <;> rfl

theorem get_modify (book : OrderBook) (id id' : OrderId) (f : Order → Order) :
    (book.modify id f).get id' =
      if id' = id then (book.get id').map f else book.get id' :=
  HashMap.get?_modify _ _ _ _

@[simp] theorem get_removeFromQueueInner (book : OrderBook) (id id' : OrderId) :
    (book.removeFromQueueInner id).get id' = book.get id' := by
  unfold removeFromQueueInner
  split <;> simp

theorem levels_removeFromQueueInner {book : OrderBook} {id : OrderId}
    {order : Order} (h : book.get id = some order) (side : Side) :
    (book.removeFromQueueInner id).levels side =
      if side = order.side then
        QueueMap.remove (book.levels side) order.priceTicks id
      else book.levels side := by
  simp only [removeFromQueueInner, h, levels_updateLevels]

theorem ordersAtPrice_removeFromQueueInner {book : OrderBook} {id : OrderId}
    {order : Order} (h : book.get id = some order) (price : UInt64)
    (side : Side) :
    (book.removeFromQueueInner id).ordersAtPrice price side =
      if side = order.side ∧ price = order.priceTicks then
        (book.ordersAtPrice price side).filter fun id' => id' ≠ id
      else book.ordersAtPrice price side := by
  unfold ordersAtPrice
  rw [levels_removeFromQueueInner h]
  by_cases hside : side = order.side
  · by_cases hprice : price = order.priceTicks
    · simp [hside, hprice, QueueMap.queue_remove]
    · simp [hside, hprice, QueueMap.queue_remove]
  · simp [hside]

end OrderBook

end ClobApi
