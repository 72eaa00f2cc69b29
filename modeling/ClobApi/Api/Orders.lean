import ClobApi.Engine.Engine
import ClobApi.Risk

/-!
# POST /v1/orders

The handler asks the risk checker, then the engine, and answers with the result
of the first that refuses or with the accepted order.  Publishing and persisting
come later and do not change the answer.
-/

namespace ClobApi

open Foundation

/-! ## Error texts -/

def OrderError.message : OrderError → String
  | .unsupportedSchemaVersion found =>
      s!"unsupported schema_version {found} " ++
        s!"(engine expects {currentSchemaVersion})"
  | .emptyField field => s!"field '{field}' must not be empty"
  | .zeroPrice => "price_ticks must be > 0"
  | .zeroSize => "size_lots must be > 0"
  | .expired expiryTsMs nowMs =>
      s!"order expired: expiry_ts_ms={expiryTsMs} <= now_ms={nowMs}"
  | .invalidPublicKey => "trader_pubkey is not a valid ed25519 public key"
  | .invalidSignature => "ed25519 signature verification failed"
  | .invalidTick price tickSize =>
      s!"price {price} not aligned to tick_size {tickSize}"
  | .invalidLot size lotSize =>
      s!"size {size} not aligned to lot_size {lotSize}"
  | .nonceInvalid nonce lastNonce =>
      s!"nonce {nonce} is not > last accepted nonce {lastNonce} " ++
        "for this trader"
  | .duplicateClientOrderId clientOrderId =>
      s!"client_order_id '{clientOrderId}' has already been used " ++
        "by this trader"
  | .marketNotFound marketId => s!"market '{marketId}' not found"
  | .marketNotActive marketId => s!"market '{marketId}' is not active"
  | .traderIdMismatch => "trader_id does not match hex(trader_pubkey)"

def NonceError.message (error : NonceError) : String :=
  s!"nonce {error.submitted} is not > last accepted nonce {error.lastNonce}"

/-- The body carries `e.to_string()`, but of a nonce error `ne.to_string()`. -/
def EngineError.bodyMessage : EngineError → String
  | .order error => "order validation failed: " ++ error.message
  | .nonce error => error.message

/-! ## Responses -/

structure ApiError where
  code : String
  message : String
  deriving DecidableEq, Repr

structure OrderAcceptedResponse where
  orderId : String
  orderHash : String
  status : OrderStatus
  seqId : Nat
  fillCount : Nat
  filledQty : UInt64
  isDuplicate : Bool
  deriving DecidableEq, Repr

/-- `dropped` is a handler that panics: the client gets no answer. -/
inductive Response where
  | accepted (statusCode : Nat) (body : OrderAcceptedResponse)
  | refused (statusCode : Nat) (body : ApiError)
  | dropped
  deriving DecidableEq, Repr

def OrderAcceptedResponse.ofResult (result : OrderResult) :
    OrderAcceptedResponse where
  orderId := result.orderId.value
  orderHash := hexEncode result.orderHash.bytes.toList
  status := result.finalStatus
  seqId := result.seqId
  fillCount := result.fills.length
  filledQty := (result.fills.map Fill.sizeLots).foldl (· + ·) 0
  isDuplicate := result.isDuplicate

/-- The status and the code of `engine_err_to_response`. -/
def EngineError.status : EngineError → Nat × String
  | .order .invalidSignature => (401, "INVALID_SIGNATURE")
  | .order .invalidPublicKey => (400, "INVALID_PUBLIC_KEY")
  | .order .traderIdMismatch => (400, "TRADER_ID_MISMATCH")
  | .order (.marketNotFound _) => (404, "MARKET_NOT_FOUND")
  | .order (.marketNotActive _) => (409, "MARKET_HALTED")
  | .order (.invalidTick ..) => (400, "INVALID_TICK_SIZE")
  | .order (.invalidLot ..) => (400, "INVALID_LOT_SIZE")
  | .order (.expired ..) => (400, "ORDER_EXPIRED")
  | .order .zeroPrice => (400, "ZERO_PRICE")
  | .order .zeroSize => (400, "ZERO_SIZE")
  | .order (.unsupportedSchemaVersion _) => (400, "UNSUPPORTED_SCHEMA_VERSION")
  | .order (.emptyField _) => (400, "EMPTY_FIELD")
  | .order (.nonceInvalid ..) => (400, "NONCE_INVALID")
  | .order (.duplicateClientOrderId _) => (409, "DUPLICATE_CLIENT_ORDER_ID")
  | .nonce _ => (400, "NONCE_INVALID")

def engineErrToResponse (error : EngineError) : Response :=
  .refused error.status.1 ⟨error.status.2, error.bodyMessage⟩

/-- The status and the code of `risk_err_to_response`. -/
def RiskError.status : RiskError → Nat × String
  | .rateLimitExceeded .. => (429, "RATE_LIMIT_EXCEEDED")
  | .orderTooLarge .. => (400, "ORDER_TOO_LARGE")
  | .priceOutsideBand .. => (400, "PRICE_OUTSIDE_BAND")

def riskErrToResponse (error : RiskError) : Response :=
  .refused error.status.1 ⟨error.status.2, error.message⟩

/-! ## The handler -/

structure PostOrder where
  signed : SignedOrder
  /-- the clock of the risk checker -/
  riskNowMs : UInt64
  env : CallEnv

structure SharedState where
  engine : Engine
  risk : RiskChecker

namespace SharedState

def withRisk (engine : Engine) (risk : RiskChecker) : SharedState :=
  ⟨engine, risk⟩

def updateReferencePrices (risk : RiskChecker) (fills : List Fill) :
    RiskChecker :=
  fills.foldl (fun risk fill =>
    risk.updateReferencePrice fill.marketId.value fill.priceTicks) risk

/-- The engine call, after the risk checker has let the request through. -/
def submit (crypto : Crypto) (state : SharedState) (request : PostOrder) :
    SharedState × Response :=
  let (engine, outcome) :=
    state.engine.processOrder crypto request.signed request.env
  match outcome with
  | .err error => ({ state with engine }, engineErrToResponse error)
  | .panic => ({ state with engine }, .dropped)
  | .ok result =>
      let risk := updateReferencePrices state.risk result.fills
      let statusCode := if result.isDuplicate then 200 else 201
      (⟨engine, risk⟩, .accepted statusCode (.ofResult result))

def postOrder (crypto : Crypto) (state : SharedState) (request : PostOrder) :
    SharedState × Response :=
  match state.risk.check request.riskNowMs request.signed.traderId
      request.signed.marketId.value request.signed.priceTicks
      request.signed.sizeLots with
  | .error error => (state, riskErrToResponse error)
  | .ok risk => { state with risk }.submit crypto request

end SharedState

end ClobApi
