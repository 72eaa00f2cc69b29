import ClobApi.Domain.Market

/-!
# Orders

`SignedOrder` is what a trader constructs and signs, `Order` what the engine
keeps after acceptance, `Fill` one match between a taker and a maker.  SHA-256
and ed25519 come from third-party crates and are parameters (`Crypto`).

Sizes, prices, nonces and clock readings are `u64` and their arithmetic wraps,
as in the release profile that the Dockerfile builds.  Sequence numbers count
the entries of a log held in memory, which never come near `2^64`, and are
natural numbers.
-/

namespace ClobApi

abbrev Bytes32 := Vector UInt8 32

abbrev Bytes64 := Vector UInt8 64

def currentSchemaVersion : UInt16 := 1

inductive Side where
  | buy
  | sell
  deriving DecidableEq, Repr

inductive TimeInForce where
  | gtc
  deriving DecidableEq, Repr

inductive OrderStatus where
  | open
  | partiallyFilled
  | filled
  | cancelled
  | cancelledStp
  deriving DecidableEq, Repr

structure OrderHash where
  bytes : Bytes32
  deriving DecidableEq, Repr

structure OrderId where
  value : String
  deriving DecidableEq, Repr

structure SignedOrder where
  schemaVersion : UInt16
  clientOrderId : String
  marketId : MarketId
  traderId : String
  side : Side
  priceTicks : UInt64
  sizeLots : UInt64
  timeInForce : TimeInForce
  nonce : UInt64
  expiryTsMs : UInt64
  createdAtMs : UInt64
  salt : UInt64
  traderPubkey : Bytes32
  signature : Bytes64
  deriving DecidableEq, Repr

structure Order where
  orderId : OrderId
  clientOrderId : String
  orderHash : OrderHash
  marketId : MarketId
  traderId : String
  traderPubkey : Bytes32
  side : Side
  priceTicks : UInt64
  origSizeLots : UInt64
  filledSizeLots : UInt64
  timeInForce : TimeInForce
  nonce : UInt64
  expiryTsMs : UInt64
  status : OrderStatus
  createdSequence : Nat
  lastUpdateSequence : Nat
  acceptedAtMs : UInt64
  deriving DecidableEq, Repr

structure Fill where
  marketId : MarketId
  takerOrderId : OrderId
  takerOrderHash : OrderHash
  takerTraderId : String
  makerOrderId : OrderId
  makerOrderHash : OrderHash
  makerTraderId : String
  priceTicks : UInt64
  sizeLots : UInt64
  sequenceId : Nat
  executedAtMs : UInt64
  deriving DecidableEq, Repr

inductive OrderError where
  | unsupportedSchemaVersion (found : UInt16)
  | emptyField (field : String)
  | zeroPrice
  | zeroSize
  | expired (expiryTsMs nowMs : UInt64)
  | invalidPublicKey
  | invalidSignature
  | invalidTick (price tickSize : UInt64)
  | invalidLot (size lotSize : UInt64)
  | nonceInvalid (nonce lastNonce : UInt64)
  | duplicateClientOrderId (clientOrderId : String)
  | marketNotFound (marketId : String)
  | marketNotActive (marketId : String)
  | traderIdMismatch
  deriving DecidableEq, Repr

namespace Side

def opposite : Side → Side
  | .buy => .sell
  | .sell => .buy

def discriminant : Side → UInt8
  | .buy => 0
  | .sell => 1

end Side

namespace TimeInForce

def discriminant : TimeInForce → UInt8
  | .gtc => 0

end TimeInForce

/-! ## Live orders -/

namespace OrderStatus

def isClosed : OrderStatus → Bool
  | .filled | .cancelled | .cancelledStp => true
  | .open | .partiallyFilled => false

end OrderStatus

namespace Order

def remainingSizeLots (order : Order) : UInt64 :=
  order.origSizeLots - order.filledSizeLots

def isClosed (order : Order) : Bool := order.status.isClosed

end Order

/-! ## Byte encodings -/

def u16BeBytes (n : UInt16) : List UInt8 :=
  [(n >>> 8).toUInt8, n.toUInt8]

def u64BeBytes (n : UInt64) : List UInt8 :=
  [(n >>> 56).toUInt8, (n >>> 48).toUInt8, (n >>> 40).toUInt8,
    (n >>> 32).toUInt8, (n >>> 24).toUInt8, (n >>> 16).toUInt8,
    (n >>> 8).toUInt8, n.toUInt8]

def utf8Bytes (s : String) : List UInt8 := s.toUTF8.data.toList

/-- A string behind its length, which is cast to `u16`. -/
def lengthPrefixed (s : String) : List UInt8 :=
  let b := utf8Bytes s
  u16BeBytes (UInt16.ofNat b.length) ++ b

def hexDigit (n : UInt8) : Char :=
  if n < 10 then Char.ofNat (48 + n.toNat) else Char.ofNat (87 + n.toNat)

/-- `hex::encode`: two lowercase digits a byte. -/
def hexEncode (bytes : List UInt8) : String :=
  String.ofList (bytes.flatMap fun b => [hexDigit (b / 16), hexDigit (b % 16)])

/-! ## Signed orders -/

/-- The third-party cryptography: `sha2` and `ed25519_dalek`. -/
structure Crypto where
  sha256 : List UInt8 → Bytes32
  /-- `VerifyingKey::from_bytes` accepts the bytes. -/
  validPublicKey : Bytes32 → Bool
  /-- `VerifyingKey::verify` accepts the signature over the message. -/
  verify : Bytes32 → Bytes32 → Bytes64 → Bool

namespace SignedOrder

/-- The bytes `canonical_hash` feeds to SHA-256. -/
def canonicalBytes (signed : SignedOrder) : List UInt8 :=
  u16BeBytes signed.schemaVersion ++
    lengthPrefixed signed.marketId.value ++
    lengthPrefixed signed.traderId ++
    lengthPrefixed signed.clientOrderId ++
    [signed.side.discriminant] ++
    u64BeBytes signed.priceTicks ++
    u64BeBytes signed.sizeLots ++
    [signed.timeInForce.discriminant] ++
    u64BeBytes signed.nonce ++
    u64BeBytes signed.expiryTsMs ++
    u64BeBytes signed.createdAtMs ++
    u64BeBytes signed.salt ++
    signed.traderPubkey.toList

def canonicalHash (crypto : Crypto) (signed : SignedOrder) : OrderHash :=
  ⟨crypto.sha256 signed.canonicalBytes⟩

def verifySignature (crypto : Crypto) (signed : SignedOrder) :
    Except OrderError Unit :=
  let hash := signed.canonicalHash crypto
  if !crypto.validPublicKey signed.traderPubkey then .error .invalidPublicKey
  else if !crypto.verify signed.traderPubkey hash.bytes signed.signature then
    .error .invalidSignature
  else .ok ()

def validateFields (signed : SignedOrder) (nowMs : UInt64) :
    Except OrderError Unit :=
  if signed.schemaVersion ≠ currentSchemaVersion then
    .error (.unsupportedSchemaVersion signed.schemaVersion)
  else if signed.marketId.value.isEmpty then .error (.emptyField "market_id")
  else if signed.traderId.isEmpty then .error (.emptyField "trader_id")
  else if signed.clientOrderId.isEmpty then
    .error (.emptyField "client_order_id")
  else if signed.priceTicks = 0 then .error .zeroPrice
  else if signed.sizeLots = 0 then .error .zeroSize
  else if signed.expiryTsMs ≠ 0 ∧ signed.expiryTsMs ≤ nowMs then
    .error (.expired signed.expiryTsMs nowMs)
  else .ok ()

end SignedOrder

end ClobApi
