/-!
# Markets

A market is an identity, a configuration, and the rules for what counts as a
valid price or size in it.
-/

namespace ClobApi

structure MarketId where
  value : String
  deriving DecidableEq, Repr

inductive MarketStatus where
  | active
  | paused
  | settled
  deriving DecidableEq, Repr

structure MarketConfig where
  id : MarketId
  baseAsset : String
  quoteAsset : String
  tickSize : UInt64
  lotSize : UInt64
  feeBpsMaker : UInt64
  feeBpsTaker : UInt64
  status : MarketStatus
  deriving DecidableEq, Repr

inductive MarketError where
  | zeroPrice
  | zeroSize
  | invalidTick (price tickSize : UInt64)
  | invalidLot (size lotSize : UInt64)
  | notActive
  | notFound (marketId : String)
  deriving DecidableEq, Repr

/-- `u64::is_multiple_of`: the only multiple of `0` is `0`, as with `%` here. -/
def isMultipleOf (n divisor : UInt64) : Bool := n % divisor == 0

namespace MarketConfig

def isActive (market : MarketConfig) : Bool := market.status == .active

def validatePrice (market : MarketConfig) (priceTicks : UInt64) :
    Except MarketError Unit :=
  if priceTicks = 0 then .error .zeroPrice
  else if !isMultipleOf priceTicks market.tickSize then
    .error (.invalidTick priceTicks market.tickSize)
  else .ok ()

def validateSize (market : MarketConfig) (sizeLots : UInt64) :
    Except MarketError Unit :=
  if sizeLots = 0 then .error .zeroSize
  else if !isMultipleOf sizeLots market.lotSize then
    .error (.invalidLot sizeLots market.lotSize)
  else .ok ()

theorem validatePrice_ok {market : MarketConfig} {priceTicks : UInt64}
    (h : market.validatePrice priceTicks = .ok ()) :
    priceTicks ≠ 0 ∧ isMultipleOf priceTicks market.tickSize = true := by
  unfold validatePrice at h
  split at h
  · cases h
  · next hzero =>
      split at h
      · cases h
      · next htick => exact ⟨hzero, by simpa using htick⟩

theorem validateSize_ok {market : MarketConfig} {sizeLots : UInt64}
    (h : market.validateSize sizeLots = .ok ()) :
    sizeLots ≠ 0 ∧ isMultipleOf sizeLots market.lotSize = true := by
  unfold validateSize at h
  split at h
  · cases h
  · next hzero =>
      split at h
      · cases h
      · next hlot => exact ⟨hzero, by simpa using hlot⟩

end MarketConfig

end ClobApi
