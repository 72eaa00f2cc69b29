import ClobApi.Db
import ClobApi.Engine.OrderBook
import ClobApi.Events

/-!
# Replay

Replay walks the log once, keeps every order it accepted in a working map and
the state store beside it, and builds the books at the end from the orders
that are still open.  The working map yields its values in an order of its own,
the parameter `shuffle`.
-/

namespace ClobApi

open Foundation

inductive ReplayError where
  | seqIdGap (expected got : Nat)
  | unknownOrder (orderId : OrderId)
  deriving DecidableEq, Repr

structure ReplayResult where
  books : HashMap String OrderBook
  state : StateStore
  lastSeqId : Nat
  eventCount : Nat

namespace Replay

structure Progress where
  orders : HashMap OrderId Order
  state : StateStore
  lastSeqId : Nat

def Progress.start : Progress := ⟨.empty, .new, 0⟩

/-- What a `Fill` event does to either order. -/
def fillOrder (seqId : Nat) (sizeLots : UInt64) (order : Order) : Order :=
  let order :=
    { order with
      filledSizeLots := order.filledSizeLots + sizeLots
      lastUpdateSequence := seqId }
  { order with
    status :=
      if order.filledSizeLots ≥ order.origSizeLots then .filled
      else .partiallyFilled }

def cancelStatus : CancelReason → OrderStatus
  | .selfTradePrevention => .cancelledStp
  | _ => .cancelled

def cancelOrder (seqId : Nat) (reason : CancelReason) (order : Order) : Order :=
  { order with status := cancelStatus reason, lastUpdateSequence := seqId }

/-- `get_mut(id).ok_or(UnknownOrder)`, then the write through it. -/
def updateOrder (orders : HashMap OrderId Order) (id : OrderId)
    (f : Order → Order) : Except ReplayError (HashMap OrderId Order) :=
  match orders.get? id with
  | none => .error (.unknownOrder id)
  | some _ => .ok (orders.modify id f)

/-- The nonce table after an `OrderAccepted` event. -/
def raiseNonce (state : StateStore) (traderId : String) (nonce : UInt64) :
    StateStore :=
  if nonce > state.lastNonce traderId then
    { state with nonces := state.nonces.insert traderId nonce }
  else state

def applyEvent (orders : HashMap OrderId Order) (state : StateStore)
    (seqId : Nat) :
    Event → Except ReplayError (HashMap OrderId Order × StateStore)
  | .orderAccepted order =>
      .ok (orders.insert order.orderId order,
        raiseNonce state order.traderId order.nonce)
  | .fill fill => do
      let orders ← updateOrder orders fill.takerOrderId
        (fillOrder seqId fill.sizeLots)
      let orders ← updateOrder orders fill.makerOrderId
        (fillOrder seqId fill.sizeLots)
      return (orders,
        state.applyFill fill.takerOrderHash.bytes fill.makerOrderHash.bytes
          fill.sizeLots)
  | .orderCancelled orderId orderHash reason => do
      let orders ← updateOrder orders orderId (cancelOrder seqId reason)
      return (orders, state.cancelOrder orderHash.bytes)
  | .orderRejected .. | .marketPaused .. | .marketResumed .. =>
      .ok (orders, state)

def step (progress : Progress) (se : SequencedEvent) :
    Except ReplayError Progress :=
  if progress.lastSeqId ≠ 0 ∧ se.seqId ≠ progress.lastSeqId + 1 then
    .error (.seqIdGap (progress.lastSeqId + 1) se.seqId)
  else do
    let (orders, state) ← applyEvent progress.orders progress.state
      se.seqId se.event
    return ⟨orders, state, se.seqId⟩

def walk (events : List SequencedEvent) : Except ReplayError Progress :=
  events.foldlM step .start

/-- `books.entry(market_id).or_default().insert(order)` -/
def insertOrder (books : HashMap String OrderBook) (order : Order) :
    HashMap String OrderBook :=
  let book := (books.get? order.marketId.value).getD .new
  books.insert order.marketId.value (book.insert order)

def openOrders (shuffle : Shuffle Order) (orders : HashMap OrderId Order) :
    List Order :=
  ((shuffle.apply orders.values).filter fun order =>
    !order.isClosed).insertionSort fun a b =>
      a.createdSequence ≤ b.createdSequence

def buildBooks (shuffle : Shuffle Order) (orders : HashMap OrderId Order) :
    HashMap String OrderBook :=
  (openOrders shuffle orders).foldl insertOrder .empty

end Replay

def replay (shuffle : Shuffle Order) (events : List SequencedEvent) :
    Except ReplayError ReplayResult := do
  let progress ← Replay.walk events
  return {
    books := Replay.buildBooks shuffle progress.orders
    state := progress.state
    lastSeqId := progress.lastSeqId
    eventCount := events.length }

end ClobApi
