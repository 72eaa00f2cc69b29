import ClobApi.Api.Orders
import ClobApi.Engine.Runs
import Mathlib.Logic.Function.Basic

/-!
# Concurrent POST /v1/orders

Each handler checks the request under the risk lock, calls the engine under the
engine lock and, if there were fills, takes the risk lock again to update the
reference prices.  Between these steps other handlers go on.
-/

namespace ClobApi

open Foundation

/-- Where a handler stands; `traded` is about to update the reference prices. -/
inductive OrderPhase where
  | idle
  | checked (request : PostOrder)
  | traded (result : OrderResult)
  | finished

def OrderPhase.isTraded : OrderPhase → Bool
  | .traded _ => true
  | _ => false

structure Desk where
  state : SharedState
  handlers : Nat → OrderPhase

inductive DeskAction where
  | check (request : PostOrder)
  | submit
  | update
  /-- the engine call of another endpoint -/
  | operate (op : Op)

def Op.isSubmission : Op → Bool
  | .processOrder .. => true
  | _ => false

namespace Desk

def start (engine : Engine) (risk : RiskChecker) : Desk :=
  ⟨.withRisk engine risk, fun _ => .idle⟩

def move (s : Desk) (i : Nat) (phase : OrderPhase) : Desk :=
  { s with handlers := Function.update s.handlers i phase }

def withEngine (s : Desk) (engine : Engine) : Desk :=
  { s with state := { s.state with engine } }

def withRisk (s : Desk) (risk : RiskChecker) : Desk :=
  { s with state := { s.state with risk } }

def afterCall : Outcome EngineError OrderResult → OrderPhase
  | .ok result => if result.fills.isEmpty then .finished else .traded result
  | .err _ | .panic => .finished

def step (crypto : Crypto) (s : Desk) (i : Nat) (action : DeskAction) :
    Option Desk :=
  match action, s.handlers i with
  | .check request, .idle =>
      match s.state.risk.check request.riskNowMs request.signed.traderId
          request.signed.marketId.value request.signed.priceTicks
          request.signed.sizeLots with
      | .error _ => some (s.move i .finished)
      | .ok risk => some ((s.withRisk risk).move i (.checked request))
  | .submit, .checked request =>
      let (engine, outcome) :=
        s.state.engine.processOrder crypto request.signed request.env
      some ((s.withEngine engine).move i (afterCall outcome))
  | .update, .traded result =>
      let risk := SharedState.updateReferencePrices s.state.risk result.fills
      some ((s.withRisk risk).move i .finished)
  | .operate op, _ =>
      if op.isSubmission then none
      else some (s.withEngine (s.state.engine.apply crypto op).1)
  | _, _ => none

def Admits (s : Desk) (i : Nat) : DeskAction → Prop
  | .submit =>
      match s.handlers i with
      | .checked request =>
          s.state.engine.Admits (.processOrder request.signed request.env)
      | _ => True
  | .operate op => s.state.engine.Admits op
  | .check _ | .update => True

def Step (crypto : Crypto) (s : Desk) (label : Nat × DeskAction)
    (s' : Desk) : Prop :=
  s.Admits label.1 label.2 ∧ s.step crypto label.1 label.2 = some s'

inductive Move (crypto : Crypto) (s : Desk) (i : Nat) : DeskAction → Desk → Prop
  | refuse {request : PostOrder} (phase : s.handlers i = .idle) :
      Move crypto s i (.check request) (s.move i .finished)
  | check {request : PostOrder} {risk : RiskChecker}
      (phase : s.handlers i = .idle)
      (passed : s.state.risk.check request.riskNowMs request.signed.traderId
        request.signed.marketId.value request.signed.priceTicks
        request.signed.sizeLots = .ok risk) :
      Move crypto s i (.check request)
        ((s.withRisk risk).move i (.checked request))
  | submit {request : PostOrder} {engine : Engine}
      {outcome : Outcome EngineError OrderResult}
      (phase : s.handlers i = .checked request)
      (called : s.state.engine.processOrder crypto request.signed request.env =
        (engine, outcome)) :
      Move crypto s i .submit
        ((s.withEngine engine).move i (afterCall outcome))
  | update {result : OrderResult} (phase : s.handlers i = .traded result) :
      Move crypto s i .update
        ((s.withRisk (SharedState.updateReferencePrices s.state.risk
          result.fills)).move i .finished)
  | operate {op : Op} (other : op.isSubmission = false) :
      Move crypto s i (.operate op)
        (s.withEngine (s.state.engine.apply crypto op).1)

section Steps

variable {crypto : Crypto} {s s' : Desk} {i : Nat} {action : DeskAction}

theorem step_move (h : s.step crypto i action = some s') :
    s.Move crypto i action s' := by
  unfold step at h
  split at h
  · next request phase =>
      split at h
      · cases h
        exact .refuse phase
      · next risk passed =>
          cases h
          exact .check phase passed
  · next request phase =>
      cases h
      exact .submit phase rfl
  · next result phase =>
      cases h
      exact .update phase
  · next op =>
      split at h
      · cases h
      · next hother =>
          cases h
          exact .operate (by simpa using hother)
  · cases h

theorem Move.handlers_of_ne {j : Nat} (h : s.Move crypto i action s')
    (hj : j ≠ i) : s'.handlers j = s.handlers j := by
  cases h with
  | operate other => rfl
  | _ => exact Function.update_of_ne hj _ _

/-- The steps of a handler that nobody interrupts are `postOrder`. -/
theorem steps_postOrder (request : PostOrder) (hidle : s.handlers i = .idle) :
    ∃ actions : List DeskAction, actions.foldlM (step crypto · i) s =
      some ⟨(s.state.postOrder crypto request).1,
        Function.update s.handlers i .finished⟩ := by
  unfold SharedState.postOrder
  cases hcheck : s.state.risk.check request.riskNowMs request.signed.traderId
      request.signed.marketId.value request.signed.priceTicks
      request.signed.sizeLots with
  | error error =>
      refine ⟨[.check request], ?_⟩
      simp [step, hidle, hcheck, move]
  | ok risk =>
      have hchecked : s.step crypto i (.check request) =
          some ((s.withRisk risk).move i (.checked request)) := by
        simp only [step, hidle, hcheck]
      cases hcall : s.state.engine.processOrder crypto request.signed
          request.env with
      | mk engine outcome =>
          have hsubmitted :
              ((s.withRisk risk).move i (.checked request)).step crypto i
                .submit =
                some ⟨⟨engine, risk⟩,
                  Function.update s.handlers i (afterCall outcome)⟩ := by
            simp [step, move, withRisk, withEngine, hcall]
          cases outcome with
          | err error =>
              refine ⟨[.check request, .submit], ?_⟩
              simp [hchecked, hsubmitted, afterCall, SharedState.submit, hcall]
          | panic =>
              refine ⟨[.check request, .submit], ?_⟩
              simp [hchecked, hsubmitted, afterCall, SharedState.submit, hcall]
          | ok result =>
              cases hfills : result.fills with
              | nil =>
                  refine ⟨[.check request, .submit], ?_⟩
                  simp [hchecked, hsubmitted, afterCall, SharedState.submit,
                    SharedState.updateReferencePrices, hcall, hfills]
              | cons fill fills =>
                  have hupdated : step crypto ⟨⟨engine, risk⟩,
                      Function.update s.handlers i (.traded result)⟩ i
                        .update =
                      some ⟨⟨engine, SharedState.updateReferencePrices risk
                        result.fills⟩,
                        Function.update s.handlers i .finished⟩ := by
                    simp [step, move, withRisk]
                  refine ⟨[.check request, .submit, .update], ?_⟩
                  rw [hfills] at hupdated
                  simp [hchecked, hsubmitted, hupdated, afterCall,
                    SharedState.submit, hcall, hfills]

end Steps

def Settled (s : Desk) : Prop := ∀ i, (s.handlers i).isTraded = false

theorem Step.run_settled {crypto : Crypto} {engine : Engine}
    {risk : RiskChecker} {s : Desk} {labels : List (Nat × DeskAction)}
    (h : Run (Step crypto) (start engine risk) labels s)
    (hdone : ∀ label ∈ labels, (s.handlers label.1).isTraded = false) :
    s.Settled := by
  have hframe : ∀ s label s', Step crypto s label s' → ∀ i, i ≠ label.1 →
      s'.handlers i = s.handlers i :=
    fun _ _ _ hs _ hi => (step_move hs.2).handlers_of_ne hi
  exact h.forall_phase (P := (·.isTraded = false)) hframe (fun _ => rfl) hdone

instance (s : Desk) (i : Nat) : (action : DeskAction) →
    Decidable (s.Admits i action)
  | .submit => by
      unfold Admits
      cases s.handlers i <;> infer_instance
  | .operate op => inferInstanceAs (Decidable (s.state.engine.Admits op))
  | .check _ | .update => inferInstanceAs (Decidable True)

/-- The labelled steps one after the other, as long as each passes the check. -/
def runAll (crypto : Crypto) (check : Desk → Nat × DeskAction → Bool)
    (s : Desk) (labels : List (Nat × DeskAction)) : Option Desk :=
  labels.foldlM (fun s label =>
    if s.Admits label.1 label.2 ∧ check s label then
      s.step crypto label.1 label.2
    else none) s

theorem runAll_run {crypto : Crypto} {check : Desk → Nat × DeskAction → Bool}
    {init s : Desk} {labels : List (Nat × DeskAction)}
    (h : init.runAll crypto check labels = some s) :
    Run (fun s label s' => Step crypto s label s' ∧ check s label = true) init
      labels s := by
  refine Run.of_foldlM (fun s label s' hnext => ?_) h
  split at hnext
  · next hpasses => exact ⟨⟨hpasses.1, hnext⟩, hpasses.2⟩
  · cases hnext

end Desk

end ClobApi
