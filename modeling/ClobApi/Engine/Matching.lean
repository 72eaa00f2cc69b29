import ClobApi.Engine.OrderBook
import ClobApi.Foundation.Loop

/-!
# Price-time priority matching

The loops of `match_order` carry the book, the taker and the fills produced so
far.  Prices are copied before the loop over levels and ids before the loop
over a queue, while both loops change the book.
-/

namespace ClobApi

open Foundation

structure MatchState where
  book : OrderBook
  taker : Order
  fills : List Fill

/-- Steps 5 and 6 of the matching loop: what a fill does to either order. -/
def applyFillTo (order : Order) (fillQty : UInt64) (seqId : Nat) : Order :=
  let order :=
    { order with
      filledSizeLots := order.filledSizeLots + fillQty
      lastUpdateSequence := seqId }
  { order with
    status :=
      if order.remainingSizeLots = 0 then .filled else .partiallyFilled }

/-- Step 2: cancel the taker that met an order of its own trader. -/
def cancelTaker (taker : Order) (seqId : Nat) : Order :=
  { taker with status := .cancelledStp, lastUpdateSequence := seqId }

/-- Step 4: the fill record. -/
def makeFill (taker maker : Order) (price fillQty : UInt64) (seqId : Nat)
    (nowMs : UInt64) : Fill where
  marketId := maker.marketId
  takerOrderId := taker.orderId
  takerOrderHash := taker.orderHash
  takerTraderId := taker.traderId
  makerOrderId := maker.orderId
  makerOrderHash := maker.orderHash
  makerTraderId := maker.traderId
  priceTicks := price
  sizeLots := fillQty
  sequenceId := seqId
  executedAtMs := nowMs

/-- Steps 6 and 7: update the maker; a full one leaves its queue. -/
def fillMaker (book : OrderBook) (makerId : OrderId) (fillQty : UInt64)
    (seqId : Nat) : OrderBook :=
  let book := book.modify makerId fun maker => applyFillTo maker fillQty seqId
  if (book.get makerId).any Order.isClosed then book.removeFromQueue makerId
  else book

/-- The body of `for maker_id in maker_ids`. -/
def matchMaker (price : UInt64) (seqId : Nat) (nowMs : UInt64) (st : MatchState)
    (makerId : OrderId) : ForInStep MatchState :=
  if st.taker.remainingSizeLots = 0 then .done st
  else
    match st.book.get makerId with
    | none => .yield st
    | some maker =>
        if maker.isClosed then .yield st
        else if maker.traderId = st.taker.traderId then
          .done { st with taker := cancelTaker st.taker seqId }
        else
          let fillQty := min st.taker.remainingSizeLots maker.remainingSizeLots
          .yield
            { book := fillMaker st.book makerId fillQty seqId
              taker := applyFillTo st.taker fillQty seqId
              fills :=
                st.fills ++
                  [makeFill st.taker maker price fillQty seqId nowMs] }

def matchAtPriceLevel (price : UInt64) (makerSide : Side) (seqId : Nat)
    (nowMs : UInt64) (st : MatchState) : MatchState :=
  forLoop (matchMaker price seqId nowMs)
    (st.book.ordersAtPrice price makerSide) st

/-- The body of `for price in prices`, shared by both sides. -/
def matchLevel (makerSide : Side) (seqId : Nat) (nowMs : UInt64)
    (st : MatchState) (price : UInt64) : ForInStep MatchState :=
  if st.taker.remainingSizeLots = 0 then .done st
  else if st.taker.isClosed then .done st
  else .yield (matchAtPriceLevel price makerSide seqId nowMs st)

def matchBuy (seqId : Nat) (nowMs : UInt64) (st : MatchState) : MatchState :=
  let prices := st.book.askPricesAsc.takeWhile fun p => p ≤ st.taker.priceTicks
  forLoop (matchLevel .sell seqId nowMs) prices st

def matchSell (seqId : Nat) (nowMs : UInt64) (st : MatchState) : MatchState :=
  let prices := st.book.bidPricesDesc.takeWhile fun p => p ≥ st.taker.priceTicks
  forLoop (matchLevel .buy seqId nowMs) prices st

/-- The book, the taker and the fills after `match_order`. -/
def matchOrder (book : OrderBook) (taker : Order) (seqId : Nat)
    (nowMs : UInt64) : MatchState :=
  match taker.side with
  | .buy => matchBuy seqId nowMs ⟨book, taker, []⟩
  | .sell => matchSell seqId nowMs ⟨book, taker, []⟩

end ClobApi
