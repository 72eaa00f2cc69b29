import ClobApi.Api.Orders
import ClobApi.Engine.Intake
import ClobApi.Foundation.Trace

/-!
# Forged requests

The rate limit counts the requests that carry a trader id, signed by that trader
or not, since it is asked before the engine authenticates.  A forged request
leaves nothing else behind, so the other responses depend on it only where a
window of that trader is full.
-/

namespace ClobApi

open Foundation

namespace PostOrder

def isAuthentic (crypto : Crypto) (request : PostOrder) : Bool :=
  (request.signed.verifySignature crypto).isOk &&
    request.signed.traderId == hexEncode request.signed.traderPubkey.toList

def forges (crypto : Crypto) (traderId : String) (request : PostOrder) : Bool :=
  request.signed.traderId == traderId && !request.isAuthentic crypto

/-- The request stays when the forged ones of the trader are deleted. -/
def stays (crypto : Crypto) (traderId : String) (request : PostOrder) : Bool :=
  !request.forges crypto traderId

end PostOrder

namespace SharedState

def meetsFullWindow (traderId : String) (state : SharedState)
    (request : PostOrder) : Bool :=
  request.signed.traderId == traderId &&
    state.risk.isFull traderId request.riskNowMs

/-- `post_order`, observed at the rate limit of one trader only. -/
def postOrderLimit (crypto : Crypto) (traderId : String) (state : SharedState)
    (request : PostOrder) : SharedState × Bool :=
  ((state.postOrder crypto request).1, state.meetsFullWindow traderId request)

end SharedState

/-! ## Refusals by the rate limit -/

def Response.isRateLimited : Response → Bool
  | .refused statusCode _ => statusCode == 429
  | _ => false

section Refusals

variable {crypto : Crypto} {state : SharedState} {request : PostOrder}

theorem checkMarket_status {risk : RiskChecker} {marketId : String}
    {priceTicks sizeLots : UInt64} {error : RiskError}
    (h : risk.checkMarket marketId priceTicks sizeLots = .error error) :
    error.status.1 = 400 := by
  obtain ⟨maxLots, rfl⟩ | ⟨reference, bandBps, rfl⟩ :=
    RiskChecker.checkMarket_error h <;> rfl

theorem submit_isRateLimited :
    (state.submit crypto request).2.isRateLimited = false := by
  unfold SharedState.submit
  cases houtcome :
    (state.engine.processOrder crypto request.signed request.env).2 with
  | ok result => simp [houtcome, Response.isRateLimited]
  | panic => simp [houtcome, Response.isRateLimited]
  | err error =>
      have hstatus : error.status.1 ≠ 429 := by
        cases error with
        | order error => cases error <;> simp [EngineError.status]
        | nonce error => simp [EngineError.status]
      simp [houtcome, engineErrToResponse, Response.isRateLimited, hstatus]

theorem postOrder_isRateLimited (h : state.risk.Bounded) :
    (state.postOrder crypto request).2.isRateLimited =
      state.risk.isFull request.signed.traderId request.riskNowMs := by
  unfold SharedState.postOrder RiskChecker.check
  rw [h.checkRateLimit_eq]
  cases hfull :
    state.risk.isFull request.signed.traderId request.riskNowMs with
  | true => rfl
  | false =>
      simp only [Bool.false_eq_true, if_false]
      cases hmarket : state.risk.checkMarket request.signed.marketId.value
          request.signed.priceTicks request.signed.sizeLots with
      | error error =>
          simp [riskErrToResponse, Response.isRateLimited,
            checkMarket_status hmarket]
      | ok => exact submit_isRateLimited

end Refusals

/-! ## States that differ in the window of one trader -/

structure SharedState.Alike (traderId : String) (s s' : SharedState) :
    Prop where
  engine : s'.engine = s.engine
  config : s'.risk.config = s.risk.config
  referencePrices : s'.risk.referencePrices = s.risk.referencePrices
  windows : ∀ other, other ≠ traderId →
    s'.risk.timestamps other = s.risk.timestamps other
  bounded : s.risk.Bounded
  bounded' : s'.risk.Bounded

section Alike

variable {crypto : Crypto} {traderId : String} {s s' : SharedState}

theorem SharedState.Alike.refl (h : s.risk.Bounded) : s.Alike traderId s :=
  ⟨rfl, rfl, rfl, fun _ _ => rfl, h, h⟩

theorem SharedState.Alike.isFull (h : s.Alike traderId s') {other : String}
    (hother : other ≠ traderId) (now : UInt64) :
    s'.risk.isFull other now = s.risk.isFull other now := by
  unfold RiskChecker.isFull RiskChecker.submissionCount RiskChecker.inWindow
  rw [h.config, h.windows other hother]

theorem SharedState.Alike.checkMarket (h : s.Alike traderId s')
    (marketId : String) (priceTicks sizeLots : UInt64) :
    s'.risk.checkMarket marketId priceTicks sizeLots =
      s.risk.checkMarket marketId priceTicks sizeLots := by
  unfold RiskChecker.checkMarket
  rw [h.config, h.referencePrices]

theorem SharedState.Alike.recordSubmission (h : s.Alike traderId s')
    {other : String} {now : UInt64} (hroom : s.risk.isFull other now = false)
    (hroom' : s'.risk.isFull other now = false) :
    SharedState.Alike traderId
      { s with risk := s.risk.recordSubmission other now }
      { s' with risk := s'.risk.recordSubmission other now } := by
  refine ⟨h.engine, h.config, h.referencePrices, fun trader htrader => ?_,
    h.bounded.recordSubmission hroom, h.bounded'.recordSubmission hroom'⟩
  simp only [RiskChecker.timestamps_recordSubmission]
  split
  · next hsame =>
      unfold RiskChecker.inWindow
      rw [h.config, h.windows other (hsame ▸ htrader)]
  · exact h.windows trader htrader

theorem SharedState.Alike.updateReferencePrices (h : s.Alike traderId s')
    (engine : Engine) (fills : List Fill) :
    SharedState.Alike traderId
      ⟨engine, SharedState.updateReferencePrices s.risk fills⟩
      ⟨engine, SharedState.updateReferencePrices s'.risk fills⟩ := by
  induction fills generalizing s s' with
  | nil =>
      exact ⟨rfl, h.config, h.referencePrices, h.windows, h.bounded, h.bounded'⟩
  | cons fill fills ih =>
      have hprice : ∀ marketId priceTicks, SharedState.Alike traderId
          { s with risk := s.risk.updateReferencePrice marketId priceTicks }
          { s' with
            risk := s'.risk.updateReferencePrice marketId priceTicks } := by
        intro marketId priceTicks
        refine ⟨h.engine, h.config, ?_, h.windows, h.bounded, h.bounded'⟩
        unfold RiskChecker.updateReferencePrice
        rw [h.referencePrices]
      exact ih (hprice fill.marketId.value fill.priceTicks)

theorem SharedState.Alike.submit (h : s.Alike traderId s')
    (request : PostOrder) :
    (s.submit crypto request).2 = (s'.submit crypto request).2 ∧
      (s.submit crypto request).1.Alike traderId
        (s'.submit crypto request).1 := by
  unfold SharedState.submit
  rw [h.engine]
  obtain ⟨engine, outcome⟩ :=
    s.engine.processOrder crypto request.signed request.env
  have hsame : SharedState.Alike traderId { s with engine }
      { s' with engine } :=
    ⟨rfl, h.config, h.referencePrices, h.windows, h.bounded, h.bounded'⟩
  cases outcome with
  | err error => exact ⟨rfl, hsame⟩
  | panic => exact ⟨rfl, hsame⟩
  | ok result => exact ⟨rfl, h.updateReferencePrices engine result.fills⟩

theorem SharedState.Alike.postOrder (h : s.Alike traderId s')
    (request : PostOrder)
    (hfull : s.risk.isFull request.signed.traderId request.riskNowMs =
      s'.risk.isFull request.signed.traderId request.riskNowMs) :
    (s.postOrder crypto request).2 = (s'.postOrder crypto request).2 ∧
      (s.postOrder crypto request).1.Alike traderId
        (s'.postOrder crypto request).1 := by
  unfold SharedState.postOrder RiskChecker.check
  rw [h.bounded.checkRateLimit_eq, h.bounded'.checkRateLimit_eq, h.config,
    h.checkMarket]
  cases hroom' :
    s'.risk.isFull request.signed.traderId request.riskNowMs with
  | true =>
      rw [hfull, hroom']
      exact ⟨rfl, h⟩
  | false =>
      rw [hfull, hroom']
      simp only [Bool.false_eq_true, if_false]
      cases s.risk.checkMarket request.signed.marketId.value
          request.signed.priceTicks request.signed.sizeLots with
      | error error => exact ⟨rfl, h⟩
      | ok =>
          exact (h.recordSubmission (hfull.trans hroom') hroom').submit request

theorem processOrder_forged {request : PostOrder}
    (hforged : request.forges crypto traderId = true) (e : Engine) :
    ∃ error, e.processOrder crypto request.signed request.env =
      (e, .err error) := by
  unfold Engine.processOrder
  cases hintake : e.checkIntake crypto request.signed request.env.nowMs with
  | error error => exact ⟨_, rfl⟩
  | ok =>
      have hauthentic := (Engine.checkIntake_ok_iff.mp hintake).authentic
      rw [PostOrder.forges, PostOrder.isAuthentic, hauthentic.signature,
        ← hauthentic.traderId] at hforged
      simp [Except.isOk, Except.toBool] at hforged

/-- A forged request leaves its mark in the window of its trader only. -/
theorem SharedState.Alike.forged (h : s.Alike traderId s')
    {request : PostOrder} (hforged : request.forges crypto traderId = true) :
    (s.postOrder crypto request).1.Alike traderId s' := by
  obtain ⟨error, herror⟩ := processOrder_forged hforged s.engine
  have htrader : request.signed.traderId = traderId := by
    simpa using (Bool.and_eq_true_iff.mp hforged).1
  unfold SharedState.postOrder RiskChecker.check
  rw [h.bounded.checkRateLimit_eq]
  cases hroom : s.risk.isFull request.signed.traderId request.riskNowMs with
  | true => exact h
  | false =>
      simp only [Bool.false_eq_true, if_false]
      cases s.risk.checkMarket request.signed.marketId.value
          request.signed.priceTicks request.signed.sizeLots with
      | error error => exact h
      | ok =>
          simp only [SharedState.submit, herror]
          refine ⟨h.engine, h.config, h.referencePrices,
            fun other hother => ?_, h.bounded.recordSubmission hroom,
            h.bounded'⟩
          rw [RiskChecker.timestamps_recordSubmission,
            if_neg (htrader ▸ hother)]
          exact h.windows other hother

end Alike

/-! ## The responses to the other requests -/

section Responses

variable {crypto : Crypto} {traderId : String} {s s' : SharedState}

theorem SharedState.Alike.response_iff (h : s.Alike traderId s')
    (request : PostOrder) :
    (s.postOrder crypto request).2 = (s'.postOrder crypto request).2 ↔
      s.meetsFullWindow traderId request =
        s'.meetsFullWindow traderId request := by
  unfold SharedState.meetsFullWindow
  by_cases htrader : request.signed.traderId = traderId
  · subst htrader
    simp only [beq_self_eq_true, Bool.true_and]
    constructor
    · intro hresponse
      rw [← postOrder_isRateLimited h.bounded,
        ← postOrder_isRateLimited h.bounded', hresponse]
    · exact fun hfull => (h.postOrder request hfull).1
  · have hother : (request.signed.traderId == traderId) = false := by
      simpa using htrader
    simp only [hother, Bool.false_and, iff_true]
    exact (h.postOrder request (h.isFull htrader _).symm).1

theorem SharedState.Alike.next (h : s.Alike traderId s') (request : PostOrder)
    (hfull : s.meetsFullWindow traderId request =
      s'.meetsFullWindow traderId request) :
    (s.postOrder crypto request).1.Alike traderId
      (s'.postOrder crypto request).1 := by
  refine (h.postOrder request ?_).2
  by_cases htrader : request.signed.traderId = traderId
  · subst htrader
    simpa [SharedState.meetsFullWindow] using hfull
  · exact (h.isFull htrader _).symm

end Responses

/--
Deleting the forged requests of a trader leaves the responses to all other
requests as they were exactly if it leaves the window of that trader full where
it was full at the trader's other requests.
-/
theorem forgeries_unnoticed_iff (crypto : Crypto) (engine : Engine)
    (config : RiskConfig) (traderId : String) (requests : List PostOrder) :
    answers (SharedState.postOrder crypto)
        (fun _ => PostOrder.stays crypto traderId)
        (.withRisk engine (.new config)) requests =
      allAnswers (SharedState.postOrder crypto)
        (.withRisk engine (.new config))
        (requests.filter (PostOrder.stays crypto traderId)) ↔
    answers (SharedState.postOrderLimit crypto traderId)
        (fun _ => PostOrder.stays crypto traderId)
        (.withRisk engine (.new config)) requests =
      allAnswers (SharedState.postOrderLimit crypto traderId)
        (.withRisk engine (.new config))
        (requests.filter (PostOrder.stays crypto traderId)) := by
  rw [← kept_eq_filter (fun s request =>
    (SharedState.postOrder crypto s request).1)]
  refine answers_kept_iff (R := SharedState.Alike traderId) ?_ ?_ ?_
    (.refl (RiskChecker.new_bounded config)) requests
  · exact fun s s' request h _ => h.response_iff request
  · exact fun s s' request h _ hfull => h.next request hfull
  · intro s s' request h hforged
    exact h.forged (by simpa [PostOrder.stays] using hforged)

/-! ## A forged request that blocks its trader -/

namespace Sample

def oneAMinute : RiskConfig := ⟨1, 60000, .empty⟩

def forgedAsk : SignedOrder := { ask with signature := .replicate 64 0 }

def askRequests : List PostOrder :=
  [⟨forgedAsk, 2000, askEnv⟩, ⟨ask, 2000, askEnv⟩]

theorem forged_ask_blocks :
    answers (SharedState.postOrder crypto)
        (fun _ => PostOrder.stays crypto ask.traderId)
        (.withRisk (after [.addMarket market]) (.new oneAMinute))
        askRequests ≠
      allAnswers (SharedState.postOrder crypto)
        (.withRisk (after [.addMarket market]) (.new oneAMinute))
        (askRequests.filter (PostOrder.stays crypto ask.traderId)) := by
  decide +kernel

end Sample

end ClobApi
