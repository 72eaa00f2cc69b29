import ClobApi.Domain.Order

/-!
# The event log

Every state change of the engine is an `Event`; the log is a list of
`SequencedEvent`s, oldest first.
-/

namespace ClobApi

inductive CancelReason where
  | traderRequest
  | expired
  | selfTradePrevention
  | adminForce
  deriving DecidableEq, Repr

inductive Event where
  | orderAccepted (order : Order)
  | orderRejected (clientOrderId traderId reason : String)
  | fill (fill : Fill)
  | orderCancelled (orderId : OrderId) (orderHash : OrderHash)
      (reason : CancelReason)
  | marketPaused (marketId : MarketId) (triggeredBy : String)
  | marketResumed (marketId : MarketId) (triggeredBy : String)
  deriving DecidableEq, Repr

structure SequencedEvent where
  seqId : Nat
  timestampMs : UInt64
  event : Event
  deriving DecidableEq, Repr

end ClobApi
