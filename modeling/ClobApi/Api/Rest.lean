import ClobApi.Api.Handlers
import ClobApi.Api.Orders
import ClobApi.Api.Trades

/-!
# The routes of the REST server

What each handler checks before it takes the engine lock, what it does under the
lock, and what it answers.
-/

namespace ClobApi

open Foundation

/-! ## Requests -/

structure BookQuery where
  depth : Nat := 20
  deriving DecidableEq, Repr

/--
A request with what its handling reads from outside.  A header that is missing
or that is no text is `none`.
-/
inductive HttpRequest where
  | postOrder (request : PostOrder)
  | deleteOrder (xTraderId : Option String) (orderId : String)
      (wall : Nat → UInt64)
  | cancelByClientId (traderId clientOrderId : String) (wall : Nat → UInt64)
  | getOrder (orderId : String)
  | getBook (marketId : String) (params : BookQuery)
  | getTrades (marketId : String) (params : TradesQuery)
  | listMarkets
  | adminPauseMarket (xAdminKey : Option String)
      (marketId triggeredBy : String) (wall : Nat → UInt64)
  | adminResumeMarket (xAdminKey : Option String)
      (marketId triggeredBy : String) (wall : Nat → UInt64)
  | adminCancelAll (xAdminKey : Option String) (marketId : String)
      (wall : Nat → UInt64)

/-! ## Responses -/

structure CancelledResponse where
  orderId : String
  seqId : Option Nat
  wasAlreadyClosed : Bool
  deriving DecidableEq, Repr

structure OrderStateResponse where
  orderId : String
  clientOrderId : String
  orderHash : String
  marketId : String
  traderId : String
  side : Side
  priceTicks : UInt64
  origSizeLots : UInt64
  filledSizeLots : UInt64
  remainingSizeLots : UInt64
  status : OrderStatus
  createdSequence : Nat
  lastUpdateSequence : Nat
  acceptedAtMs : UInt64
  deriving DecidableEq, Repr

def OrderStateResponse.ofOrder (o : Order) : OrderStateResponse where
  orderId := o.orderId.value
  clientOrderId := o.clientOrderId
  orderHash := hexEncode o.orderHash.bytes.toList
  marketId := o.marketId.value
  traderId := o.traderId
  side := o.side
  priceTicks := o.priceTicks
  origSizeLots := o.origSizeLots
  filledSizeLots := o.filledSizeLots
  remainingSizeLots := o.remainingSizeLots
  status := o.status
  createdSequence := o.createdSequence
  lastUpdateSequence := o.lastUpdateSequence
  acceptedAtMs := o.acceptedAtMs

structure BookLevel where
  priceTicks : UInt64
  totalQtyLots : UInt64
  orderCount : Nat
  deriving DecidableEq, Repr

def BookLevel.ofLevel (l : PriceLevel) : BookLevel :=
  ⟨l.price, l.totalQty, l.orderCount⟩

structure BookResponse where
  marketId : String
  bids : List BookLevel
  asks : List BookLevel
  deriving DecidableEq, Repr

structure MarketResponse where
  marketId : String
  baseAsset : String
  quoteAsset : String
  tickSize : UInt64
  lotSize : UInt64
  feeBpsMaker : UInt64
  feeBpsTaker : UInt64
  status : MarketStatus
  deriving DecidableEq, Repr

def MarketResponse.ofMarket (m : MarketConfig) : MarketResponse where
  marketId := m.id.value
  baseAsset := m.baseAsset
  quoteAsset := m.quoteAsset
  tickSize := m.tickSize
  lotSize := m.lotSize
  feeBpsMaker := m.feeBpsMaker
  feeBpsTaker := m.feeBpsTaker
  status := m.status

inductive Body where
  | orderAccepted (body : OrderAcceptedResponse)
  | cancelled (body : CancelledResponse)
  | orderState (body : OrderStateResponse)
  | book (body : BookResponse)
  | trades (body : List TradeResponse)
  | markets (body : List MarketResponse)
  | adminPauseResume (marketId : String) (seqId : Nat)
  | adminCancelAll (marketId : String) (cancelledCount : Nat)
  | error (body : ApiError)
  deriving DecidableEq, Repr

structure HttpResponse where
  statusCode : Nat
  body : Body
  deriving DecidableEq, Repr

namespace HttpResponse

def error (statusCode : Nat) (code message : String) : HttpResponse :=
  ⟨statusCode, .error ⟨code, message⟩⟩

def json (body : Body) : HttpResponse := ⟨200, body⟩

def isError (response : HttpResponse) : Bool :=
  match response.body with
  | .error _ => true
  | _ => false

end HttpResponse

/-! ## Errors -/

/-- The closure that both cancelling handlers give to `map_err`. -/
def cancelErrToResponse : CancelError → HttpResponse
  | .notFound orderId =>
      .error 404 "ORDER_NOT_FOUND" s!"order {orderId} not found"
  | .unauthorized traderId =>
      .error 403 "UNAUTHORIZED_CANCEL"
        s!"trader {traderId} does not own this order"

def MarketStatus.debug : MarketStatus → String
  | .active => "Active"
  | .paused => "Paused"
  | .settled => "Settled"

def AdminError.message : AdminError → String
  | .marketNotFound marketId => s!"market '{marketId}' not found"
  | .alreadyInState marketId status =>
      s!"market '{marketId}' is already {status.debug}"
  | .settled marketId =>
      s!"market '{marketId}' is settled — cannot be modified"

/-- The status and the code of `admin_err_to_response`. -/
def AdminError.status : AdminError → Nat × String
  | .marketNotFound _ => (404, "MARKET_NOT_FOUND")
  | .alreadyInState .. => (409, "ALREADY_IN_STATE")
  | .settled _ => (409, "MARKET_SETTLED")

def adminErrToResponse (error : AdminError) : HttpResponse :=
  .error error.status.1 error.status.2 error.message

/-! ## Before the engine lock -/

def requireAdminKey (adminKey : String) (xAdminKey : Option String) :
    Except HttpResponse Unit :=
  if adminKey.isEmpty then
    .error (.error 401 "ADMIN_DISABLED" "admin key not configured")
  else
    let provided := xAdminKey.getD ""
    if provided ≠ adminKey then
      .error (.error 401 "INVALID_ADMIN_KEY"
        "invalid or missing X-Admin-Key header")
    else .ok ()

theorem requireAdminKey_ok_iff {adminKey : String} {xAdminKey : Option String} :
    requireAdminKey adminKey xAdminKey = .ok () ↔
      adminKey ≠ "" ∧ xAdminKey = some adminKey := by
  unfold requireAdminKey
  cases xAdminKey with
  | none =>
      by_cases hkey : adminKey = ""
      · simp [hkey]
      · have hne : ("" : String) ≠ adminKey := fun h => hkey h.symm
        simp [hkey, hne]
  | some provided =>
      by_cases hkey : adminKey = ""
      · simp [hkey]
      · by_cases hsame : provided = adminKey <;> simp [hkey, hsame]

inductive Work where
  | call (request : Request)
  | getOrder (orderId : String)
  | getBook (marketId : String) (params : BookQuery)
  | getTrades (marketId : String) (params : TradesQuery)
  | listMarkets

namespace HttpRequest

/--
The header checks.  The error of `?` is the response; the risk check of
`post_order` is left to the server.
-/
def work (adminKey : String) : HttpRequest → Except HttpResponse Work
  | .postOrder request => .ok (.call (.postOrder request.signed request.env))
  | .deleteOrder xTraderId orderId wall =>
      match xTraderId with
      | none =>
          .error (.error 400 "MISSING_TRADER_ID"
            "X-Trader-Id header is required")
      | some traderId => .ok (.call (.deleteOrder ⟨orderId⟩ traderId wall))
  | .cancelByClientId traderId clientOrderId wall =>
      .ok (.call (.cancelByClientId traderId clientOrderId wall))
  | .getOrder orderId => .ok (.getOrder orderId)
  | .getBook marketId params => .ok (.getBook marketId params)
  | .getTrades marketId params => .ok (.getTrades marketId params)
  | .listMarkets => .ok .listMarkets
  | .adminPauseMarket xAdminKey marketId triggeredBy wall => do
      requireAdminKey adminKey xAdminKey
      pure (.call (.adminPauseMarket marketId triggeredBy wall))
  | .adminResumeMarket xAdminKey marketId triggeredBy wall => do
      requireAdminKey adminKey xAdminKey
      pure (.call (.adminResumeMarket marketId triggeredBy wall))
  | .adminCancelAll xAdminKey marketId wall => do
      requireAdminKey adminKey xAdminKey
      pure (.call (.adminCancelAll marketId wall))

end HttpRequest

/-! ## Under the engine lock -/

/-- How the block under the engine lock ends. -/
inductive Verdict where
  | panicked
  /-- `?` -/
  | failed (response : HttpResponse)
  /-- the response of `post_order` with the result it is made of -/
  | ordered (result : OrderResult)
  | done (response : HttpResponse)

namespace Verdict

def ofOrder : Outcome EngineError OrderResult → Verdict
  | .ok result => .ordered result
  | .err error =>
      .failed (.error error.status.1 error.status.2 error.bodyMessage)
  | .panic => .panicked

def ofCancel : Outcome CancelError CancelResult → Verdict
  | .ok result =>
      .done (.json (.cancelled
        ⟨result.orderId.value, result.seqId, result.wasAlreadyClosed⟩))
  | .err error => .failed (cancelErrToResponse error)
  | .panic => .panicked

def ofAdmin (body : Nat → Body) : Except AdminError Nat → Verdict
  | .ok n => .done (.json (body n))
  | .error error => .failed (adminErrToResponse error)

def ofRead {α : Type} (body : α → Body) : Except (Nat × ApiError) α → Verdict
  | .ok value => .done (.json (body value))
  | .error (statusCode, error) => .failed ⟨statusCode, .error error⟩

def goesOn : Verdict → Bool
  | .ordered _ | .done _ => true
  | .panicked | .failed _ => false

end Verdict

def OrderResult.toResponse (result : OrderResult) : HttpResponse where
  statusCode := if result.isDuplicate then 200 else 201
  body := .orderAccepted (.ofResult result)

namespace Request

/-- The engine call of a mutating handler, and how the block ends. -/
def perform (crypto : Crypto) (e : Engine) : Request → Engine × Verdict
  | .postOrder signed env =>
      let (e, outcome) := e.processOrder crypto signed env
      (e, .ofOrder outcome)
  | .deleteOrder orderId traderId wall =>
      let (e, outcome) := e.processCancel orderId traderId wall
      (e, .ofCancel outcome)
  | .cancelByClientId traderId clientOrderId wall =>
      match e.sequencer.idempotencyCheck traderId clientOrderId with
      | none =>
          (e, .failed (.error 404 "ORDER_NOT_FOUND"
            "no order found for this client_order_id"))
      | some record =>
          let (e, outcome) := e.processCancel record.orderId traderId wall
          (e, .ofCancel outcome)
  | .adminPauseMarket marketId triggeredBy wall =>
      let (e, answer) := e.pauseMarket marketId triggeredBy wall
      (e, .ofAdmin (.adminPauseResume marketId) answer)
  | .adminResumeMarket marketId triggeredBy wall =>
      let (e, answer) := e.resumeMarket marketId triggeredBy wall
      (e, .ofAdmin (.adminPauseResume marketId) answer)
  | .adminCancelAll marketId wall =>
      let (e, answer) := e.cancelAllOrders marketId wall
      (e, .ofAdmin (.adminCancelAll marketId) answer)

theorem goesOn_ofOrder (outcome : Outcome EngineError OrderResult) :
    (Verdict.ofOrder outcome).goesOn = (Reply.order outcome).succeeds := by
  cases outcome <;> rfl

theorem goesOn_ofCancel (outcome : Outcome CancelError CancelResult) :
    (Verdict.ofCancel outcome).goesOn = (Reply.cancel outcome).succeeds := by
  cases outcome <;> rfl

theorem goesOn_ofAdmin (body : Nat → Body) (answer : Except AdminError Nat) :
    (Verdict.ofAdmin body answer).goesOn = (Reply.admin answer).succeeds := by
  cases answer <;> rfl

/-- The handler goes on exactly if the handler model says so. -/
theorem call_eq_perform (crypto : Crypto) (e : Engine) (request : Request) :
    request.call crypto e =
      ((request.perform crypto e).1,
        if (request.perform crypto e).2.goesOn then
          some (e.sequencer.peekNextSeqId - 1)
        else none) := by
  cases request with
  | postOrder signed env =>
      simp only [perform, goesOn_ofOrder]
      rfl
  | deleteOrder orderId traderId wall =>
      simp only [perform, goesOn_ofCancel]
      rfl
  | cancelByClientId traderId clientOrderId wall =>
      cases hrecord :
          e.sequencer.idempotencyCheck traderId clientOrderId with
      | none =>
          simp only [call, op, perform, hrecord]
          rfl
      | some record =>
          simp only [call, op, perform, hrecord, goesOn_ofCancel]
          rfl
  | adminPauseMarket marketId triggeredBy wall =>
      simp only [perform, goesOn_ofAdmin]
      rfl
  | adminResumeMarket marketId triggeredBy wall =>
      simp only [perform, goesOn_ofAdmin]
      rfl
  | adminCancelAll marketId wall =>
      simp only [perform, goesOn_ofAdmin]
      rfl

end Request

namespace Engine

/-- `get_order`; an error is a status code with its body, as in `getTrades`. -/
def orderState (e : Engine) (orderId : String) :
    Except (Nat × ApiError) OrderStateResponse :=
  match e.getOrder ⟨orderId⟩ with
  | none => .error (404, ⟨"ORDER_NOT_FOUND", s!"order {orderId} not found"⟩)
  | some order => .ok (.ofOrder order)

def getBook (e : Engine) (marketId : String) (params : BookQuery) :
    Except (Nat × ApiError) BookResponse :=
  let depth := min params.depth 200
  match e.l2Snapshot marketId depth with
  | none =>
      .error (404, ⟨"MARKET_NOT_FOUND", s!"market {marketId} not found"⟩)
  | some (bids, asks) =>
      .ok ⟨marketId, bids.map .ofLevel, asks.map .ofLevel⟩

end Engine

/-- How the block under the engine lock ends, and with which engine. -/
def Work.perform (crypto : Crypto) (e : Engine) : Work → Engine × Verdict
  | .call request => request.perform crypto e
  | .getOrder orderId => (e, .ofRead .orderState (e.orderState orderId))
  | .getBook marketId params => (e, .ofRead .book (e.getBook marketId params))
  | .getTrades marketId params =>
      (e, .ofRead .trades (e.getTrades marketId params))
  | .listMarkets => (e, .done (.json (.markets (e.listMarkets.map .ofMarket))))

theorem Work.perform_ordered {crypto : Crypto} {e : Engine} {work : Work}
    {result : OrderResult} (h : (work.perform crypto e).2 = .ordered result) :
    ∃ signed env, work = .call (.postOrder signed env) := by
  have hcancel : ∀ outcome, Verdict.ofCancel outcome ≠ .ordered result := by
    intro outcome
    cases outcome <;> simp [Verdict.ofCancel]
  have hadmin : ∀ body answer, Verdict.ofAdmin body answer ≠
      .ordered result := by
    intro body answer
    cases answer <;> simp [Verdict.ofAdmin]
  have hread : ∀ {α : Type} (body : α → Body) answer,
      Verdict.ofRead body answer ≠ .ordered result := by
    intro α body answer
    cases answer <;> simp [Verdict.ofRead]
  cases work with
  | call request =>
      cases request with
      | postOrder signed env => exact ⟨signed, env, rfl⟩
      | deleteOrder orderId traderId wall => exact absurd h (hcancel _)
      | cancelByClientId traderId clientOrderId wall =>
          simp only [perform, Request.perform] at h
          split at h
          · cases h
          · exact absurd h (hcancel _)
      | _ => exact absurd h (hadmin _ _)
  | listMarkets => cases h
  | _ => exact absurd h (hread _ _)

/-! ## Requests behind the works -/

/-- The requests that reach the engine with a call, and what the headers say. -/
inductive HttpRequest.Calls (adminKey : String) : HttpRequest → Request → Prop
  | postOrder (order : PostOrder) :
      Calls adminKey (.postOrder order) (.postOrder order.signed order.env)
  | deleteOrder (traderId orderId : String) (wall : Nat → UInt64) :
      Calls adminKey (.deleteOrder (some traderId) orderId wall)
        (.deleteOrder ⟨orderId⟩ traderId wall)
  | cancelByClientId (traderId clientOrderId : String) (wall : Nat → UInt64) :
      Calls adminKey (.cancelByClientId traderId clientOrderId wall)
        (.cancelByClientId traderId clientOrderId wall)
  | adminPauseMarket (enabled : adminKey ≠ "") (marketId triggeredBy : String)
      (wall : Nat → UInt64) :
      Calls adminKey
        (.adminPauseMarket (some adminKey) marketId triggeredBy wall)
        (.adminPauseMarket marketId triggeredBy wall)
  | adminResumeMarket (enabled : adminKey ≠ "") (marketId triggeredBy : String)
      (wall : Nat → UInt64) :
      Calls adminKey
        (.adminResumeMarket (some adminKey) marketId triggeredBy wall)
        (.adminResumeMarket marketId triggeredBy wall)
  | adminCancelAll (enabled : adminKey ≠ "") (marketId : String)
      (wall : Nat → UInt64) :
      Calls adminKey (.adminCancelAll (some adminKey) marketId wall)
        (.adminCancelAll marketId wall)

theorem HttpRequest.work_eq_call_iff {adminKey : String} {http : HttpRequest}
    {request : Request} :
    http.work adminKey = .ok (.call request) ↔ http.Calls adminKey request := by
  have hkey : ∀ {xAdminKey work},
      (do requireAdminKey adminKey xAdminKey; pure work :
        Except HttpResponse Work) = .ok (.call request) ↔
      (adminKey ≠ "" ∧ xAdminKey = some adminKey) ∧ work = .call request := by
    intro xAdminKey work
    rw [← requireAdminKey_ok_iff]
    cases requireAdminKey adminKey xAdminKey <;>
      simp [bind, Except.bind, pure, Except.pure]
  constructor
  · intro h
    cases http with
    | postOrder order =>
        cases h
        exact .postOrder order
    | deleteOrder xTraderId orderId wall =>
        cases xTraderId with
        | none => cases h
        | some traderId =>
            cases h
            exact .deleteOrder traderId orderId wall
    | cancelByClientId traderId clientOrderId wall =>
        cases h
        exact .cancelByClientId traderId clientOrderId wall
    | adminPauseMarket xAdminKey marketId triggeredBy wall =>
        obtain ⟨⟨henabled, rfl⟩, hwork⟩ := hkey.mp h
        cases hwork
        exact .adminPauseMarket henabled marketId triggeredBy wall
    | adminResumeMarket xAdminKey marketId triggeredBy wall =>
        obtain ⟨⟨henabled, rfl⟩, hwork⟩ := hkey.mp h
        cases hwork
        exact .adminResumeMarket henabled marketId triggeredBy wall
    | adminCancelAll xAdminKey marketId wall =>
        obtain ⟨⟨henabled, rfl⟩, hwork⟩ := hkey.mp h
        cases hwork
        exact .adminCancelAll henabled marketId wall
    | _ => cases h
  · intro h
    cases h with
    | adminPauseMarket henabled marketId triggeredBy wall =>
        exact hkey.mpr ⟨⟨henabled, rfl⟩, rfl⟩
    | adminResumeMarket henabled marketId triggeredBy wall =>
        exact hkey.mpr ⟨⟨henabled, rfl⟩, rfl⟩
    | adminCancelAll henabled marketId wall =>
        exact hkey.mpr ⟨⟨henabled, rfl⟩, rfl⟩
    | _ => rfl

end ClobApi
