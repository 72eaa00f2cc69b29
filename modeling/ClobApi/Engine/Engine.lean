import ClobApi.Domain.Market
import ClobApi.Engine.Matching
import ClobApi.Replay.Replay
import ClobApi.Sequencer

/-!
# The engine

Every operation takes the engine and gives it back with its answer.  A call
that panics gives back the engine as it stood at the panic: the engine lives
behind a mutex that does not poison, so later calls go on from there.
-/

namespace ClobApi

open Foundation

structure OrderResult where
  orderId : OrderId
  orderHash : OrderHash
  seqId : Nat
  fills : List Fill
  finalStatus : OrderStatus
  isDuplicate : Bool
  deriving DecidableEq, Repr

structure CancelResult where
  orderId : OrderId
  seqId : Option Nat
  wasAlreadyClosed : Bool
  deriving DecidableEq, Repr

inductive CancelError where
  | notFound (orderId : String)
  | unauthorized (traderId : String)
  deriving DecidableEq, Repr

inductive EngineError where
  | order (error : OrderError)
  | nonce (error : NonceError)
  deriving DecidableEq, Repr

inductive Outcome (ε α : Type) where
  | ok (value : α)
  | err (error : ε)
  | panic
  deriving DecidableEq, Repr

def usizeMax : Nat := UInt64.size - 1

/-- What one `process_order` call reads from outside the engine. -/
structure CallEnv where
  /-- the injected engine clock -/
  nowMs : UInt64
  /-- `Uuid::new_v4()` -/
  newOrderId : OrderId
  /-- the wall clock at the append of each event -/
  wall : Nat → UInt64

structure Engine where
  books : HashMap String OrderBook
  markets : HashMap String MarketConfig
  sequencer : Sequencer
  state : StateStore
  orderMarketIndex : HashMap OrderId String

namespace Engine

def new : Engine := ⟨.empty, .empty, .new, .new, .empty⟩

def log (e : Engine) : List SequencedEvent := e.sequencer.log

def addMarket (e : Engine) (config : MarketConfig) : Engine :=
  let id := config.id.value
  { e with
    books := e.books.insert id ((e.books.get? id).getD .new)
    markets := e.markets.insert id config }

def appendEvent (wall : Nat → UInt64) (e : Engine) (event : Event) : Engine :=
  { e with sequencer := e.sequencer.appendEvent wall event }

/-! ## Queries -/

def findOrder (e : Engine) (orderId : OrderId) : Option Order := do
  let marketId ← e.orderMarketIndex.get? orderId
  let book ← e.books.get? marketId
  book.get orderId

def getOrder (e : Engine) (orderId : OrderId) : Option Order :=
  e.findOrder orderId

def bestPrices (e : Engine) (marketId : String) :
    Option (Option UInt64 × Option UInt64) :=
  (e.books.get? marketId).map fun book => (book.bestBid, book.bestAsk)

def l2Snapshot (e : Engine) (marketId : String) (depth : Nat) :
    Option (List PriceLevel × List PriceLevel) :=
  (e.books.get? marketId).map fun book =>
    (book.l2Bids depth, book.l2Asks depth)

def listMarkets (e : Engine) : List MarketConfig :=
  e.markets.values.insertionSort fun a b => a.id.value ≤ b.id.value

/-- The body of the `filter_map` of `get_fills`; `fromSeq` 0 stands for all. -/
def fillFrom (marketId : String) (fromSeq : Nat) (se : SequencedEvent) :
    Option Fill :=
  if se.seqId < fromSeq ∧ fromSeq > 0 then none
  else
    match se.event with
    | .fill fill => if fill.marketId.value = marketId then some fill else none
    | _ => none

/-- `limit` 0 is no cap. -/
def getFills (e : Engine) (marketId : String) (fromSeq limit : Nat) :
    List Fill :=
  (e.log.filterMap (fillFrom marketId fromSeq)).take
    (if limit = 0 then usizeMax else limit)

/-! ## Order submission -/

/-- Steps 1 to 5 of `process_order`, which only read. -/
def checkIntake (crypto : Crypto) (e : Engine) (signed : SignedOrder)
    (nowMs : UInt64) : Except EngineError Unit :=
  match signed.validateFields nowMs with
  | .error error => .error (.order error)
  | .ok () =>
  match signed.verifySignature crypto with
  | .error error => .error (.order error)
  | .ok () =>
  if signed.traderId ≠ hexEncode signed.traderPubkey.toList then
    .error (.order .traderIdMismatch)
  else
  match e.markets.get? signed.marketId.value with
  | none => .error (.order (.marketNotFound signed.marketId.value))
  | some market =>
  if !market.isActive then
    .error (.order (.marketNotActive signed.marketId.value))
  else
  match market.validatePrice signed.priceTicks with
  | .error _ => .error (.order (.invalidTick signed.priceTicks market.tickSize))
  | .ok () =>
  match market.validateSize signed.sizeLots with
  | .error _ => .error (.order (.invalidLot signed.sizeLots market.lotSize))
  | .ok () => .ok ()

/-- Step 6: the answer to a pair that was accepted before. -/
def duplicateResult (e : Engine) (record : IdempotencyRecord) :
    OrderResult where
  orderId := record.orderId
  orderHash := record.orderHash
  seqId := record.originalSeqId
  fills := []
  finalStatus := ((e.findOrder record.orderId).map Order.status).getD .filled
  isDuplicate := true

/-- Step 8: the order that is embedded in `OrderAccepted`. -/
def buildOrder (crypto : Crypto) (signed : SignedOrder) (env : CallEnv)
    (seqId : Nat) : Order where
  orderId := env.newOrderId
  clientOrderId := signed.clientOrderId
  orderHash := signed.canonicalHash crypto
  marketId := signed.marketId
  traderId := signed.traderId
  traderPubkey := signed.traderPubkey
  side := signed.side
  priceTicks := signed.priceTicks
  origSizeLots := signed.sizeLots
  filledSizeLots := 0
  timeInForce := signed.timeInForce
  nonce := signed.nonce
  expiryTsMs := signed.expiryTsMs
  status := .open
  createdSequence := seqId
  lastUpdateSequence := seqId
  acceptedAtMs := env.nowMs

/-- Step 8: log the acceptance, register it and index the order. -/
def acceptOrder (e : Engine) (order : Order) (env : CallEnv) : Engine :=
  let e := e.appendEvent env.wall (.orderAccepted order)
  { e with
    sequencer := e.sequencer.registerAccepted order.traderId order.clientOrderId
      order.createdSequence order.orderId order.orderHash env.nowMs
    orderMarketIndex :=
      e.orderMarketIndex.insert order.orderId order.marketId.value }

/-- Step 10 for one fill. -/
def sequenceFill (wall : Nat → UInt64) (e : Engine) (fill : Fill) : Engine :=
  { e.appendEvent wall (.fill fill) with
    state := e.state.applyFill fill.takerOrderHash.bytes
      fill.makerOrderHash.bytes fill.sizeLots }

/-- Step 11. -/
def sequenceStpCancel (wall : Nat → UInt64) (e : Engine)
    (order : Order) : Engine :=
  if order.status = .cancelledStp then
    { e.appendEvent wall
        (.orderCancelled order.orderId order.orderHash .selfTradePrevention)
      with
      state := e.state.cancelOrder order.orderHash.bytes }
  else e

/-- Step 12: `None` is the panic of `books.get_mut(..).unwrap()`. -/
def insertResidual (e : Engine) (order : Order) : Option Engine :=
  if !order.isClosed ∧ order.remainingSizeLots > 0 then
    (e.books.get? order.marketId.value).map fun book =>
      { e with
        books := e.books.insert order.marketId.value (book.insert order) }
  else some e

/-- Steps 9 to 12 for an order that has just been accepted. -/
def executeOrder (e : Engine) (order : Order) (env : CallEnv) :
    Engine × Outcome EngineError OrderResult :=
  let seqId := order.createdSequence
  match e.books.get? order.marketId.value with
  | none => (e, .panic)
  | some book =>
      let st := matchOrder book order seqId env.nowMs
      let e := { e with books := e.books.insert order.marketId.value st.book }
      let e := st.fills.foldl (sequenceFill env.wall) e
      let e := e.sequenceStpCancel env.wall st.taker
      match e.insertResidual st.taker with
      | none => (e, .panic)
      | some e =>
          (e, .ok
            { orderId := order.orderId
              orderHash := order.orderHash
              seqId := seqId
              fills := st.fills
              finalStatus := st.taker.status
              isDuplicate := false })

def processOrder (crypto : Crypto) (e : Engine) (signed : SignedOrder)
    (env : CallEnv) : Engine × Outcome EngineError OrderResult :=
  match e.checkIntake crypto signed env.nowMs with
  | .error error => (e, .err error)
  | .ok () =>
  match e.sequencer.idempotencyCheck signed.traderId signed.clientOrderId with
  | some record => (e, .ok (e.duplicateResult record))
  | none =>
  match e.state.checkAndUpdateNonce signed.traderId signed.nonce with
  | .error error => (e, .err (.nonce error))
  | .ok state =>
      let order := buildOrder crypto signed env e.sequencer.peekNextSeqId
      (acceptOrder { e with state } order env).executeOrder order env

/-! ## Order cancellation -/

def processCancel (e : Engine) (orderId : OrderId) (traderId : String)
    (wall : Nat → UInt64) : Engine × Outcome CancelError CancelResult :=
  match e.orderMarketIndex.get? orderId with
  | none => (e, .err (.notFound orderId.value))
  | some marketId =>
  match e.books.get? marketId with
  | none => (e, .panic)
  | some book =>
  match book.get orderId with
  | none => (e, .err (.notFound orderId.value))
  | some order =>
  if order.traderId ≠ traderId then (e, .err (.unauthorized traderId))
  else if order.isClosed then
    (e, .ok { orderId, seqId := none, wasAlreadyClosed := true })
  else
    let seqId := e.sequencer.peekNextSeqId
    let e := e.appendEvent wall
      (.orderCancelled orderId order.orderHash .traderRequest)
    ({ e with
        state := e.state.cancelOrder order.orderHash.bytes
        books := e.books.insert marketId (book.cancel orderId).1 },
      .ok { orderId, seqId := some seqId, wasAlreadyClosed := false })

/-! ## Crash recovery -/

/-- The index entry of one event, as `restore_from_events` rebuilds it. -/
def indexAccepted (index : HashMap OrderId String) (se : SequencedEvent) :
    HashMap OrderId String :=
  match se.event with
  | .orderAccepted order => index.insert order.orderId order.marketId.value
  | _ => index

def restoreFromEvents (shuffle : Shuffle Order) (e : Engine)
    (events : List SequencedEvent) : Engine × Except ReplayError Unit :=
  if events.isEmpty then (e, .ok ())
  else
    match replay shuffle events with
    | .error error => (e, .error error)
    | .ok result =>
        let nextSeqId := (events.getLast?.map fun se => se.seqId + 1).getD 1
        ({ e with
            books := result.books
            state := result.state
            orderMarketIndex := events.foldl indexAccepted .empty
            sequencer := .resume nextSeqId events },
          .ok ())

end Engine

end ClobApi
