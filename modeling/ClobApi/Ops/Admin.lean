import ClobApi.Engine.Engine

/-!
# Administrative operations

Pause and resume a market, and cancel every order accepted in a market.
-/

namespace ClobApi

open Foundation

inductive AdminError where
  | marketNotFound (marketId : String)
  | alreadyInState (marketId : String) (status : MarketStatus)
  | settled (marketId : String)
  deriving DecidableEq, Repr

namespace Engine

def findMarket (e : Engine) (marketId : String) : Option MarketConfig :=
  e.listMarkets.find? fun market => market.id.value == marketId

/--
What `pause_market` and `resume_market` share: leave one status for the other.
-/
def switchMarket (e : Engine) (marketId : String) (source target : MarketStatus)
    (event : Event) (wall : Nat → UInt64) : Engine × Except AdminError Nat :=
  match e.findMarket marketId with
  | none => (e, .error (.marketNotFound marketId))
  | some market =>
      if market.status = target then
        (e, .error (.alreadyInState marketId target))
      else if market.status = source then
        ((e.addMarket { market with status := target }).appendEvent wall event,
          .ok e.sequencer.peekNextSeqId)
      else (e, .error (.settled marketId))

def pauseMarket (e : Engine) (marketId triggeredBy : String)
    (wall : Nat → UInt64) : Engine × Except AdminError Nat :=
  e.switchMarket marketId .active .paused
    (.marketPaused ⟨marketId⟩ triggeredBy) wall

def resumeMarket (e : Engine) (marketId triggeredBy : String)
    (wall : Nat → UInt64) : Engine × Except AdminError Nat :=
  e.switchMarket marketId .paused .active
    (.marketResumed ⟨marketId⟩ triggeredBy) wall

/-- The `filter_map` over the log: every order it accepted in the market. -/
def acceptedIn (marketId : String) (se : SequencedEvent) :
    Option (OrderId × OrderHash) :=
  match se.event with
  | .orderAccepted order =>
      if order.marketId.value == marketId && !order.isClosed then
        some (order.orderId, order.orderHash)
      else none
  | _ => none

/-- The body of the cancel loop, which leaves the book alone. -/
def forceCancel (wall : Nat → UInt64) (e : Engine)
    (target : OrderId × OrderHash) : Engine :=
  { e.appendEvent wall (.orderCancelled target.1 target.2 .adminForce) with
    state := e.state.cancelOrder target.2.bytes }

def cancelAllOrders (e : Engine) (marketId : String) (wall : Nat → UInt64) :
    Engine × Except AdminError Nat :=
  match e.findMarket marketId with
  | none => (e, .error (.marketNotFound marketId))
  | some _ =>
      let openOrders := e.log.filterMap (acceptedIn marketId)
      (openOrders.foldl (forceCancel wall) e, .ok openOrders.length)

end Engine

end ClobApi
