import ClobApi.Api.PostOrders
import ClobApi.Api.Rest

/-!
# The REST server

All routes together: a handler checks its headers, `post_order` asks the risk
checker, and then the handler works under the engine lock, publishes and
persists as the handler model says.  A submission with fills takes the risk lock
again before it publishes.
-/

namespace ClobApi

open Foundation

/-- How far a handler has come with its request. -/
inductive Serving where
  | idle
  /-- refused before the engine lock -/
  | turnedAway (request : HttpRequest) (response : HttpResponse)
  /-- waits for the engine lock or holds it -/
  | entered (request : HttpRequest) (work : Work)
  /-- waits for the risk lock -/
  | traded (request : HttpRequest) (result : OrderResult)
  /-- publishes, persists and responds; a panic has no response -/
  | ended (request : HttpRequest) (response : Option HttpResponse)

def Serving.isIdle : Serving → Bool
  | .idle => true
  | _ => false

def Serving.afterWork (request : HttpRequest) : Verdict → Serving
  | .panicked => .ended request none
  | .failed response | .done response => .ended request (some response)
  | .ordered result =>
      if result.fills.isEmpty then .ended request (some result.toResponse)
      else .traded request result

def Work.lock : Work → Action
  | .call request => .lock request
  | _ => .read

/-- The phase in which the handler holds the engine lock for its work. -/
def Work.locked : Work → Phase
  | .call request => .locked request
  | _ => .reading

structure Service where
  server : Server
  risk : RiskChecker
  adminKey : String
  servings : Nat → Serving

inductive ServiceAction where
  | receive (request : HttpRequest)
  | proceed
  /-- the transaction of `append_events` fails -/
  | fail

namespace Service

def start (e : Engine) (risk : RiskChecker) (adminKey : String) : Service :=
  ⟨.start e, risk, adminKey, fun _ => .idle⟩

def move (s : Service) (i : Nat) (serving : Serving) : Service :=
  { s with servings := Function.update s.servings i serving }

def withServer (s : Service) (server : Server) : Service := { s with server }

def withRisk (s : Service) (risk : RiskChecker) : Service := { s with risk }

/-- What comes before the engine lock: the headers, then the risk. -/
def vet (s : Service) (request : HttpRequest) :
    Except HttpResponse (RiskChecker × Work) :=
  match request.work s.adminKey with
  | .error response => .error response
  | .ok work =>
      match request with
      | .postOrder order =>
          match s.risk.check order.riskNowMs order.signed.traderId
              order.signed.marketId.value order.signed.priceTicks
              order.signed.sizeLots with
          | .error error =>
              .error (.error error.status.1 error.status.2 error.message)
          | .ok risk => .ok (risk, work)
      | _ => .ok (s.risk, work)

def step (crypto : Crypto) (s : Service) (i : Nat) (action : ServiceAction) :
    Option Service :=
  match action, s.servings i with
  | .receive request, .idle =>
      match s.vet request with
      | .error response => some (s.move i (.turnedAway request response))
      | .ok (risk, work) =>
          some ((s.withRisk risk).move i (.entered request work))
  | .proceed, .entered request work =>
      match s.server.handlers i with
      | .idle => (s.server.step crypto i work.lock).map s.withServer
      | _ =>
          (s.server.step crypto i .proceed).map fun server =>
            (s.withServer server).move i
              (.afterWork request (work.perform crypto s.server.engine).2)
  | .proceed, .traded request result =>
      let risk := SharedState.updateReferencePrices s.risk result.fills
      some ((s.withRisk risk).move i (.ended request (some result.toResponse)))
  | .proceed, .ended _ _ =>
      (s.server.step crypto i .proceed).map s.withServer
  | .fail, .ended _ _ => (s.server.step crypto i .fail).map s.withServer
  | _, _ => none

inductive Move (crypto : Crypto) (s : Service) (i : Nat) :
    ServiceAction → Service → Prop
  | turnAway {request : HttpRequest} {response : HttpResponse}
      (serving : s.servings i = .idle)
      (refused : s.vet request = .error response) :
      Move crypto s i (.receive request)
        (s.move i (.turnedAway request response))
  | enter {request : HttpRequest} {risk : RiskChecker} {work : Work}
      (serving : s.servings i = .idle)
      (admitted : s.vet request = .ok (risk, work)) :
      Move crypto s i (.receive request)
        ((s.withRisk risk).move i (.entered request work))
  | lock {request : HttpRequest} {work : Work} {server : Server}
      (serving : s.servings i = .entered request work)
      (waits : s.server.handlers i = .idle)
      (stepped : s.server.step crypto i work.lock = some server) :
      Move crypto s i .proceed (s.withServer server)
  | work {request : HttpRequest} {work : Work} {server : Server}
      (serving : s.servings i = .entered request work)
      (holds : s.server.handlers i ≠ .idle)
      (stepped : s.server.step crypto i .proceed = some server) :
      Move crypto s i .proceed
        ((s.withServer server).move i
          (.afterWork request (work.perform crypto s.server.engine).2))
  | update {request : HttpRequest} {result : OrderResult}
      (serving : s.servings i = .traded request result) :
      Move crypto s i .proceed
        ((s.withRisk (SharedState.updateReferencePrices s.risk
          result.fills)).move i (.ended request (some result.toResponse)))
  | deliver {request : HttpRequest} {response : Option HttpResponse}
      {server : Server} (serving : s.servings i = .ended request response)
      (stepped : s.server.step crypto i .proceed = some server) :
      Move crypto s i .proceed (s.withServer server)
  | rollback {request : HttpRequest} {response : Option HttpResponse}
      {server : Server} (serving : s.servings i = .ended request response)
      (stepped : s.server.step crypto i .fail = some server) :
      Move crypto s i .fail (s.withServer server)

theorem step_move {crypto : Crypto} {s s' : Service} {i : Nat}
    {action : ServiceAction} (h : s.step crypto i action = some s') :
    s.Move crypto i action s' := by
  unfold step at h
  split at h
  · next request serving =>
      split at h
      · next response refused =>
          cases h
          exact .turnAway serving refused
      · next risk work admitted =>
          cases h
          exact .enter serving admitted
  · next request work serving =>
      split at h
      · next waits =>
          obtain ⟨server, stepped, rfl⟩ := Option.map_eq_some_iff.mp h
          exact .lock serving waits stepped
      · next holds =>
          obtain ⟨server, stepped, rfl⟩ := Option.map_eq_some_iff.mp h
          exact .work serving holds stepped
  · next request result serving =>
      cases h
      exact .update serving
  · next serving =>
      obtain ⟨server, stepped, rfl⟩ := Option.map_eq_some_iff.mp h
      exact .deliver serving stepped
  · next serving =>
      obtain ⟨server, stepped, rfl⟩ := Option.map_eq_some_iff.mp h
      exact .rollback serving stepped
  · cases h

/-- The server draws order ids that were not accepted before. -/
def Step (crypto : Crypto) (s : Service) (label : Nat × ServiceAction)
    (s' : Service) : Prop :=
  s.server.Admits label.1 ∧ s.step crypto label.1 label.2 = some s'

/-- The labelled steps one after the other. -/
def runAll (crypto : Crypto) (s : Service)
    (labels : List (Nat × ServiceAction)) : Option Service :=
  labels.foldlM (fun s label =>
    if s.server.Admits label.1 then s.step crypto label.1 label.2
    else none) s

theorem runAll_run {crypto : Crypto} {init s : Service}
    {labels : List (Nat × ServiceAction)}
    (h : init.runAll crypto labels = some s) :
    Run (Step crypto) init labels s := by
  refine Run.of_foldlM (fun s label s' hnext => ?_) h
  split at hnext
  · next hadmits => exact ⟨hadmits, hnext⟩
  · cases hnext

end Service

/-! ## The handler model -/

def Phase.isCalled : Phase → Bool
  | .publishing .. | .persisting .. | .finished => true
  | .idle | .reading | .locked _ => false

/--
What is known of a request at each stage, and the phases of the handler model
that belong to it.
-/
def Serving.Fits (adminKey : String) : Serving → Phase → Prop
  | .idle, phase | .turnedAway .., phase => phase = .idle
  | .entered request work, phase =>
      request.work adminKey = .ok work ∧ (phase = .idle ∨ phase = work.locked)
  | .traded request _, phase =>
      (∃ order, request = .postOrder order) ∧
        ∃ seqBefore, phase = .publishing seqBefore .entry
  | .ended .., phase => phase.isCalled = true

theorem Work.locked_ne_idle (work : Work) : work.locked ≠ .idle := by
  cases work <;> simp [Work.locked]

namespace Service

variable {crypto : Crypto} {s s' : Service} {i : Nat}

section Moves

variable {action : ServiceAction}

theorem Move.servings_of_ne {j : Nat} (h : s.Move crypto i action s')
    (hj : j ≠ i) : s'.servings j = s.servings j := by
  cases h with
  | lock serving waits stepped | deliver serving stepped
  | rollback serving stepped => rfl
  | _ => exact Function.update_of_ne hj _ _

theorem Move.handlers_of_ne {j : Nat} (h : s.Move crypto i action s')
    (hj : j ≠ i) : s'.server.handlers j = s.server.handlers j := by
  cases h with
  | turnAway serving refused | enter serving admitted | update serving => rfl
  | lock serving waits stepped | work serving waits stepped
  | deliver serving stepped | rollback serving stepped =>
      exact (Server.step_move stepped).handlers_of_ne hj

theorem step_lock {work : Work} {server server' : Server}
    (h : server.step crypto i work.lock = some server') :
    server.lock = none ∧ server' = server.acquire i work.locked := by
  cases work with
  | call request =>
      cases Server.step_move h with
      | lock request phase free => exact ⟨free, rfl⟩
  | _ =>
      cases Server.step_move h with
      | read phase free => exact ⟨free, rfl⟩

theorem callEngine_handlers (server : Server) (request : Request) :
    (server.callEngine crypto i request).handlers i =
      if (request.perform crypto server.engine).2.goesOn then
        .publishing (server.engine.sequencer.peekNextSeqId - 1) .entry
      else .finished := by
  unfold Server.callEngine
  rw [Request.call_eq_perform]
  cases (request.perform crypto server.engine).2.goesOn <;>
    exact Function.update_self i _ _

theorem step_work_engine {work : Work} {server server' : Server}
    (h : server.step crypto i .proceed = some server')
    (hlocked : server.handlers i = work.locked) :
    server'.engine = (work.perform crypto server.engine).1 := by
  have hmove := Server.step_move h
  cases work with
  | call request =>
      cases hmove with
      | call phase =>
          obtain rfl := Phase.locked.inj (phase.symm.trans hlocked)
          rw [Server.callEngine_engine, Request.call_eq_perform]
          rfl
      | _ phase => simp [phase, Work.locked] at hlocked
  | _ =>
      cases hmove with
      | unlock phase => rfl
      | _ phase => simp [phase, Work.locked] at hlocked

theorem afterWork_fits (adminKey : String) {request : HttpRequest}
    {verdict : Verdict}
    (hpost : ∀ result, verdict = .ordered result →
      ∃ order, request = .postOrder order) (seqBefore : Nat) :
    (Serving.afterWork request verdict).Fits adminKey
      (if verdict.goesOn then .publishing seqBefore .entry else .finished) := by
  cases verdict with
  | ordered result =>
      unfold Serving.afterWork
      dsimp only
      split
      · rfl
      · exact ⟨hpost result rfl, seqBefore, rfl⟩
  | _ => rfl

theorem ofRead_fits {α : Type} (adminKey : String) (request : HttpRequest)
    (body : α → Body) (answer : Except (Nat × ApiError) α) :
    (Serving.afterWork request (.ofRead body answer)).Fits adminKey
      .finished := by
  cases answer <;> rfl

theorem posts_of_ordered {request : HttpRequest} {work : Work}
    {adminKey : String} {e : Engine} {result : OrderResult}
    (hwork : request.work adminKey = .ok work)
    (hordered : (work.perform crypto e).2 = .ordered result) :
    ∃ order, request = .postOrder order := by
  obtain ⟨signed, env, rfl⟩ := Work.perform_ordered hordered
  cases HttpRequest.work_eq_call_iff.mp hwork with
  | postOrder order => exact ⟨order, rfl⟩

theorem step_work_fits {work : Work} {server server' : Server}
    {request : HttpRequest} {adminKey : String}
    (h : server.step crypto i .proceed = some server')
    (hlocked : server.handlers i = work.locked)
    (hwork : request.work adminKey = .ok work) :
    (Serving.afterWork request (work.perform crypto server.engine).2).Fits
      adminKey (server'.handlers i) := by
  have hmove := Server.step_move h
  cases hmove with
  | @call called phase =>
      cases work with
      | call called' =>
          obtain rfl := Phase.locked.inj (phase.symm.trans hlocked)
          rw [callEngine_handlers]
          exact afterWork_fits adminKey
            (fun result hordered => posts_of_ordered hwork hordered) _
      | _ => simp [phase, Work.locked] at hlocked
  | unlock phase =>
      have hleft : (server.release i .finished).handlers i = .finished :=
        Function.update_self i _ _
      rw [hleft]
      cases work with
      | call called => simp [phase, Work.locked] at hlocked
      | listMarkets => rfl
      | _ => exact ofRead_fits adminKey request _ _
  | _ phase => cases work <;> simp [phase, Work.locked] at hlocked

theorem step_called {server server' : Server} {action : Action}
    (h : server.step crypto i action = some server')
    (hcalled : (server.handlers i).isCalled = true) :
    (server'.handlers i).isCalled = true ∧ server'.engine = server.engine := by
  cases Server.step_move h with
  | lock request phase free | read phase free | unlock phase | call phase =>
      simp [phase, Phase.isCalled] at hcalled
  | _ phase =>
      refine ⟨?_, rfl⟩
      exact (congrArg Phase.isCalled (Function.update_self i _ _)).trans rfl

theorem work_of_vet {request : HttpRequest} {risk : RiskChecker} {work : Work}
    (h : s.vet request = .ok (risk, work)) :
    request.work s.adminKey = .ok work := by
  unfold vet at h
  split at h
  · cases h
  · next work' hwork =>
      rw [hwork]
      split at h
      · split at h
        · cases h
        · cases h
          rfl
      · cases h
        rfl

theorem Move.adminKey (h : s.Move crypto i action s') :
    s'.adminKey = s.adminKey := by
  cases h <;> rfl

theorem Move.fits (h : s.Move crypto i action s')
    (hfits : (s.servings i).Fits s.adminKey (s.server.handlers i)) :
    (s'.servings i).Fits s.adminKey (s'.server.handlers i) := by
  cases h with
  | turnAway serving refused =>
      rw [serving] at hfits
      simp only [move, Function.update_self]
      exact hfits
  | enter serving admitted =>
      rw [serving] at hfits
      simp only [move, withRisk, Function.update_self]
      exact ⟨work_of_vet admitted, .inl hfits⟩
  | lock serving waits stepped =>
      rw [serving] at hfits
      obtain ⟨-, rfl⟩ := step_lock stepped
      simp only [withServer, serving]
      exact ⟨hfits.1, .inr (Function.update_self i _ _)⟩
  | work serving holds stepped =>
      rw [serving] at hfits
      obtain ⟨hwork, hphase⟩ := hfits
      simp only [move, withServer, Function.update_self]
      exact step_work_fits stepped (hphase.resolve_left holds) hwork
  | update serving =>
      rw [serving] at hfits
      obtain ⟨-, seqBefore, hphase⟩ := hfits
      simp only [move, withRisk, Function.update_self, hphase]
      rfl
  | deliver serving stepped | rollback serving stepped =>
      rw [serving] at hfits
      simp only [withServer, serving]
      exact (step_called stepped hfits).1

end Moves

def Fits (s : Service) : Prop :=
  ∀ i, (s.servings i).Fits s.adminKey (s.server.handlers i)

theorem start_fits (e : Engine) (risk : RiskChecker) (adminKey : String) :
    (start e risk adminKey).Fits :=
  fun _ => rfl

theorem Fits.step {action : ServiceAction} (h : s.Fits)
    (hstep : s.step crypto i action = some s') : s'.Fits := by
  intro j
  have hmove := step_move hstep
  rw [hmove.adminKey]
  by_cases hj : j = i
  · subst hj
    exact hmove.fits (h _)
  · rw [hmove.servings_of_ne hj, hmove.handlers_of_ne hj]
    exact h j

/--
What a step of handler `i` means to the engine, to its request and to the risk
checker.
-/
inductive Effect (crypto : Crypto) (s : Service) (i : Nat) :
    Engine → Serving → RiskChecker → Prop
  | turnAway {request : HttpRequest} {response : HttpResponse}
      (serving : s.servings i = .idle)
      (refused : s.vet request = .error response) :
      Effect crypto s i s.server.engine (.turnedAway request response) s.risk
  | enter {request : HttpRequest} {risk : RiskChecker} {work : Work}
      (serving : s.servings i = .idle)
      (admitted : s.vet request = .ok (risk, work)) :
      Effect crypto s i s.server.engine (.entered request work) risk
  | work {request : HttpRequest} {work : Work}
      (serving : s.servings i = .entered request work)
      (locked : s.server.handlers i = work.locked) :
      Effect crypto s i (work.perform crypto s.server.engine).1
        (.afterWork request (work.perform crypto s.server.engine).2) s.risk
  | update {request : HttpRequest} {result : OrderResult}
      (serving : s.servings i = .traded request result) :
      Effect crypto s i s.server.engine
        (.ended request (some result.toResponse))
        (SharedState.updateReferencePrices s.risk result.fills)
  | rest : Effect crypto s i s.server.engine (s.servings i) s.risk

theorem Move.effect {action : ServiceAction} (h : s.Move crypto i action s')
    (hfits : s.Fits) :
    Effect crypto s i s'.server.engine (s'.servings i) s'.risk := by
  have hi := hfits i
  cases h with
  | turnAway serving refused =>
      simp only [move, Function.update_self]
      exact .turnAway serving refused
  | enter serving admitted =>
      simp only [move, withRisk, Function.update_self]
      exact .enter serving admitted
  | lock serving waits stepped =>
      obtain ⟨-, rfl⟩ := step_lock stepped
      exact .rest
  | work serving holds stepped =>
      rw [serving] at hi
      have hlocked := hi.2.resolve_left holds
      simp only [move, withServer, Function.update_self]
      rw [step_work_engine stepped hlocked]
      exact .work serving hlocked
  | update serving =>
      simp only [move, withRisk, Function.update_self]
      exact .update serving
  | deliver serving stepped | rollback serving stepped =>
      rw [serving] at hi
      simp only [withServer]
      rw [(step_called stepped hi).2]
      exact .rest

/-! ## The server below -/

theorem Step.server {label : Nat × ServiceAction}
    (h : Step crypto s label s') :
    s'.server = s.server ∨
      ∃ action, Server.Step crypto s.server (label.1, action) s'.server := by
  obtain ⟨i, action⟩ := label
  obtain ⟨hadmits, hstep⟩ := h
  cases step_move hstep with
  | turnAway serving refused | enter serving admitted | update serving =>
      exact .inl rfl
  | lock serving waits stepped => exact .inr ⟨_, hadmits, stepped⟩
  | work serving holds stepped => exact .inr ⟨_, hadmits, stepped⟩
  | deliver serving stepped => exact .inr ⟨_, hadmits, stepped⟩
  | rollback serving stepped => exact .inr ⟨_, hadmits, stepped⟩

section Runs

variable {e : Engine} {risk : RiskChecker} {adminKey : String}
  {labels : List (Nat × ServiceAction)}

theorem Step.run_fits
    (h : Run (Step crypto) (start e risk adminKey) labels s) : s.Fits :=
  h.invariant (start_fits e risk adminKey) fun _ _ _ hfits hstep =>
    hfits.step hstep.2

theorem Step.run_adminKey
    (h : Run (Step crypto) (start e risk adminKey) labels s) :
    s.adminKey = adminKey := by
  induction h with
  | start => rfl
  | next _ hstep ih => exact (step_move hstep.2).adminKey.trans ih

theorem Step.run_server
    (h : Run (Step crypto) (start e risk adminKey) labels s) :
    ∃ labels, Run (Server.Step crypto) (.start e) labels s.server := by
  induction h with
  | start => exact ⟨[], .start⟩
  | next _ hstep ih =>
      obtain ⟨labels, hrun⟩ := ih
      rcases Step.server hstep with hsame | ⟨action, hserver⟩
      · exact ⟨labels, hsame ▸ hrun⟩
      · exact ⟨_, hrun.next hserver⟩

end Runs

end Service

/-! ## The desk of orders -/

/-- The phase of the handler at the desk, which sees submissions only. -/
def Serving.atDesk : Serving → OrderPhase
  | .turnedAway (.postOrder _) _ | .ended (.postOrder _) _ => .finished
  | .entered (.postOrder order) _ => .checked order
  | .traded _ result => .traded result
  | _ => .idle

theorem Serving.atDesk_afterWork (order : PostOrder)
    (outcome : Outcome EngineError OrderResult) :
    (Serving.afterWork (.postOrder order) (.ofOrder outcome)).atDesk =
      Desk.afterCall outcome := by
  cases outcome with
  | ok result =>
      unfold Desk.afterCall Serving.afterWork Verdict.ofOrder
      dsimp only
      split <;> rfl
  | _ => rfl

theorem Serving.atDesk_entered {http : HttpRequest}
    (hpost : ∀ order, http ≠ .postOrder order) (work : Work) :
    (Serving.entered http work).atDesk = .idle := by
  cases http with
  | postOrder order => exact absurd rfl (hpost order)
  | _ => rfl

theorem Serving.atDesk_afterWork_other {http : HttpRequest}
    (hpost : ∀ order, http ≠ .postOrder order) {verdict : Verdict}
    (hordered : ∀ result, verdict ≠ .ordered result) :
    (Serving.afterWork http verdict).atDesk = .idle := by
  have hended : ∀ response, (Serving.ended http response).atDesk = .idle := by
    intro response
    cases http with
    | postOrder order => exact absurd rfl (hpost order)
    | _ => rfl
  cases verdict with
  | ordered result => exact absurd rfl (hordered result)
  | _ => exact hended _

namespace Service

variable {crypto : Crypto} {s s' : Service} {i : Nat}

def desk (s : Service) : Desk :=
  ⟨⟨s.server.engine, s.risk⟩, fun i => (s.servings i).atDesk⟩

theorem Move.desk_eq {action : ServiceAction} (h : s.Move crypto i action s') :
    s'.desk = ⟨⟨s'.server.engine, s'.risk⟩,
      Function.update s.desk.handlers i (s'.servings i).atDesk⟩ := by
  refine congrArg (Desk.mk _) (funext fun j => ?_)
  by_cases hj : j = i
  · subst hj
    rw [Function.update_self]
  · rw [Function.update_of_ne hj, h.servings_of_ne hj]
    rfl

theorem desk_rest {serving : Serving}
    (h : serving.atDesk = (s.servings i).atDesk) :
    (⟨⟨s.server.engine, s.risk⟩,
      Function.update s.desk.handlers i serving.atDesk⟩ : Desk) = s.desk := by
  rw [h]
  exact congrArg (Desk.mk _) (Function.update_eq_self i _)

def riskCheck (risk : RiskChecker) (order : PostOrder) :
    Except RiskError RiskChecker :=
  risk.check order.riskNowMs order.signed.traderId order.signed.marketId.value
    order.signed.priceTicks order.signed.sizeLots

theorem vet_postOrder (s : Service) (order : PostOrder) :
    s.vet (.postOrder order) =
      match riskCheck s.risk order with
      | .error error =>
          .error (.error error.status.1 error.status.2 error.message)
      | .ok risk =>
          .ok (risk, .call (.postOrder order.signed order.env)) :=
  rfl

theorem desk_check (s : Service) (order : PostOrder)
    (hidle : s.desk.handlers i = .idle) :
    s.desk.step crypto i (.check order) =
      match riskCheck s.risk order with
      | .error _ => some (s.desk.move i .finished)
      | .ok risk => some ((s.desk.withRisk risk).move i (.checked order)) := by
  simp only [Desk.step, hidle]
  rfl

theorem vet_other {http : HttpRequest} {risk : RiskChecker} {work : Work}
    (hpost : ∀ order, http ≠ .postOrder order)
    (h : s.vet http = .ok (risk, work)) : risk = s.risk := by
  unfold vet at h
  split at h
  · cases h
  · split at h
    · exact absurd rfl (hpost _)
    · cases h
      rfl

theorem work_other {http : HttpRequest} {work : Work}
    (hpost : ∀ order, http ≠ .postOrder order)
    (hwork : http.work s.adminKey = .ok work)
    (hlocked : s.server.handlers i = work.locked)
    (hadmits : s.server.Admits i) :
    (work.perform crypto s.server.engine).1 = s.server.engine ∨
      ∃ op, op.isSubmission = false ∧ s.server.engine.Admits op ∧
        (work.perform crypto s.server.engine).1 =
          (s.server.engine.apply crypto op).1 := by
  cases work with
  | call request =>
      have hother : ∀ signed env, request ≠ .postOrder signed env := by
        rintro signed env rfl
        cases HttpRequest.work_eq_call_iff.mp hwork with
        | postOrder order => exact hpost order rfl
      unfold Server.Admits at hadmits
      rw [hlocked] at hadmits
      have hcall : (request.perform crypto s.server.engine).1 =
          (request.call crypto s.server.engine).1 := by
        rw [Request.call_eq_perform]
      rw [Work.perform, hcall, Request.call]
      cases hop : request.op s.server.engine with
      | none => exact .inl rfl
      | some op =>
          refine .inr ⟨op, ?_, hadmits op hop, rfl⟩
          cases request with
          | postOrder signed env => exact absurd rfl (hother signed env)
          | cancelByClientId traderId clientOrderId wall =>
              obtain ⟨record, -, rfl⟩ := Option.map_eq_some_iff.mp hop
              rfl
          | _ =>
              cases hop
              rfl
  | _ => exact .inl rfl

/-- Every step of the server is a step at the desk or none. -/
theorem Step.desk {label : Nat × ServiceAction} (h : Step crypto s label s')
    (hfits : s.Fits) :
    s'.desk = s.desk ∨
      ∃ action, Desk.Step crypto s.desk (label.1, action) s'.desk := by
  obtain ⟨i, action⟩ := label
  obtain ⟨hadmits, hstep⟩ := h
  have hi := hfits i
  have hmove := step_move hstep
  have heffect := hmove.effect hfits
  rw [hmove.desk_eq]
  generalize s'.server.engine = engine', s'.servings i = serving',
    s'.risk = risk' at heffect ⊢
  cases heffect with
  | @turnAway http response serving refused =>
      have hidle : s.desk.handlers i = .idle := congrArg Serving.atDesk serving
      cases http with
      | postOrder order =>
          rw [vet_postOrder] at refused
          cases hcheck : riskCheck s.risk order with
          | ok risk => simp [hcheck] at refused
          | error error =>
              refine .inr ⟨.check order, trivial, ?_⟩
              rw [desk_check s order hidle, hcheck]
              rfl
      | _ => exact .inl (desk_rest (congrArg Serving.atDesk serving).symm)
  | @enter http risk work serving admitted =>
      have hidle : s.desk.handlers i = .idle := congrArg Serving.atDesk serving
      by_cases hpost : ∃ order, http = .postOrder order
      · obtain ⟨order, rfl⟩ := hpost
        rw [vet_postOrder] at admitted
        cases hcheck : riskCheck s.risk order with
        | error error => simp [hcheck] at admitted
        | ok risk' =>
            simp only [hcheck, Except.ok.injEq, Prod.mk.injEq] at admitted
            obtain ⟨rfl, rfl⟩ := admitted
            refine .inr ⟨.check order, trivial, ?_⟩
            rw [desk_check s order hidle, hcheck]
            rfl
      · have hother : ∀ order, http ≠ .postOrder order :=
          fun order hhttp => hpost ⟨order, hhttp⟩
        obtain rfl := vet_other hother admitted
        refine .inl (desk_rest ?_)
        rw [serving]
        exact Serving.atDesk_entered hother work
  | @work http work serving locked =>
      rw [serving] at hi
      by_cases hpost : ∃ order, http = .postOrder order
      · obtain ⟨order, rfl⟩ := hpost
        obtain rfl : _ = work := Except.ok.inj hi.1
        have hchecked : s.desk.handlers i = .checked order :=
          congrArg Serving.atDesk serving
        have hfresh : s.server.engine.Admits
            (.processOrder order.signed order.env) := by
          unfold Server.Admits at hadmits
          rw [locked] at hadmits
          exact hadmits _ rfl
        refine .inr ⟨.submit, ?_, ?_⟩
        · simp only [Desk.Admits, hchecked]
          exact hfresh
        · simp only [Desk.step, hchecked, Work.perform, Request.perform,
            Serving.atDesk_afterWork]
          rfl
      · have hother : ∀ order, http ≠ .postOrder order :=
          fun order hhttp => hpost ⟨order, hhttp⟩
        have hordered : ∀ result,
            (work.perform crypto s.server.engine).2 ≠ .ordered result :=
          fun result h => hpost (posts_of_ordered hi.1 h)
        have hidle : s.desk.handlers i = .idle :=
          (congrArg Serving.atDesk serving).trans
            (Serving.atDesk_entered hother work)
        rw [Serving.atDesk_afterWork_other hother hordered,
          Function.update_eq_self_iff.mpr hidle.symm]
        obtain hsame | ⟨op, hop, hfresh, hengine⟩ :=
          work_other hother hi.1 locked hadmits
        · rw [hsame]
          exact .inl rfl
        · refine .inr ⟨.operate op, hfresh, ?_⟩
          rw [hengine]
          simp only [Desk.step, hop]
          rfl
  | @update http result serving =>
      rw [serving] at hi
      obtain ⟨⟨order, rfl⟩, -⟩ := hi
      have htraded : s.desk.handlers i = .traded result :=
        congrArg Serving.atDesk serving
      refine .inr ⟨.update, trivial, ?_⟩
      simp only [Desk.step, htraded]
      rfl
  | rest => exact .inl (desk_rest rfl)

/-- At the desk the requests make a run of the concurrent submissions. -/
theorem Step.run_desk {e : Engine} {risk : RiskChecker} {adminKey : String}
    {labels : List (Nat × ServiceAction)}
    (h : Run (Step crypto) (start e risk adminKey) labels s) :
    ∃ labels, Run (Desk.Step crypto) (.start e risk) labels s.desk := by
  induction h with
  | start => exact ⟨[], .start⟩
  | next hrun hstep ih =>
      obtain ⟨labels, hdesk⟩ := ih
      rcases Step.desk hstep (Step.run_fits hrun) with hsame | ⟨action, hnext⟩
      · exact ⟨labels, hsame ▸ hdesk⟩
      · exact ⟨_, hdesk.next hnext⟩

end Service

/-! ## Sample requests -/

namespace Sample

def openService : Service :=
  .start (after [.addMarket market]) (.new ⟨10, 1000, .empty⟩) "key"

theorem opened_run : Run (Step crypto) .new [.addMarket market]
    (after [.addMarket market]) :=
  .next .start ⟨trivial, rfl⟩

def serves (i steps : Nat) : List (Nat × ServiceAction) :=
  .replicate steps (i, .proceed)

/-- The last but one request does not know the admin key. -/
def received : List (Nat × ServiceAction) :=
  [(0, .receive (.postOrder ⟨ask, 2000, askEnv⟩)),
    (1, .receive (.postOrder ⟨bid, 2000, bidEnv⟩)),
    (2, .receive (.adminPauseMarket (some "key") "BTC-USD" "ops" wall)),
    (3, .receive (.adminPauseMarket (some "guess") "BTC-USD" "ops" wall)),
    (4, .receive (.cancelByClientId ask.traderId "ask-1" wall))]

/-- The handlers go on in turn, and the engine lock goes around. -/
def interleaved : List (Nat × ServiceAction) :=
  received ++ serves 0 2 ++ serves 1 3 ++ serves 4 2 ++ serves 0 4 ++ serves 2 2

end Sample

end ClobApi
