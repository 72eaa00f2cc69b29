import ClobApi.Api.Envelope
import ClobApi.Engine.Runs
import ClobApi.Pg
import Mathlib.Data.List.Induction
import Mathlib.Logic.Function.Basic

/-!
# The REST handlers

Handlers run concurrently and meet at the engine lock.  A mutating handler
records `seq_before` and calls the engine under the lock, then publishes and
then persists what was logged since.  Both read the log under `try_lock`, and a
handler that finds the lock taken skips that part.
-/

namespace ClobApi

open Foundation

/--
The request of a mutating handler, with what its engine call reads from outside.
-/
inductive Request where
  | postOrder (signed : SignedOrder) (env : CallEnv)
  | deleteOrder (orderId : OrderId) (traderId : String) (wall : Nat → UInt64)
  | cancelByClientId (traderId clientOrderId : String) (wall : Nat → UInt64)
  | adminPauseMarket (marketId triggeredBy : String) (wall : Nat → UInt64)
  | adminResumeMarket (marketId triggeredBy : String) (wall : Nat → UInt64)
  | adminCancelAll (marketId : String) (wall : Nat → UInt64)

def Reply.succeeds : Reply → Bool
  | .order (.ok _) | .cancel (.ok _) | .admin (.ok _) => true
  | _ => false

namespace Request

/-- The engine call; `cancel_by_client_id` may find no order to cancel. -/
def op (e : Engine) : Request → Option Op
  | .postOrder signed env => some (.processOrder signed env)
  | .deleteOrder orderId traderId wall =>
      some (.processCancel orderId traderId wall)
  | .cancelByClientId traderId clientOrderId wall =>
      (e.sequencer.idempotencyCheck traderId clientOrderId).map fun record =>
        .processCancel record.orderId traderId wall
  | .adminPauseMarket marketId triggeredBy wall =>
      some (.pauseMarket marketId triggeredBy wall)
  | .adminResumeMarket marketId triggeredBy wall =>
      some (.resumeMarket marketId triggeredBy wall)
  | .adminCancelAll marketId wall => some (.cancelAllOrders marketId wall)

/--
The block under the engine lock, with `seq_before` when the handler goes on.
-/
def call (crypto : Crypto) (e : Engine) (request : Request) :
    Engine × Option Nat :=
  let seqBefore := e.sequencer.peekNextSeqId - 1
  match request.op e with
  | none => (e, none)
  | some op =>
      let (e, reply) := e.apply crypto op
      (e, if reply.succeeds then some seqBefore else none)

end Request

def eventsSince (log : List SequencedEvent) (seqBefore : Nat) :
    List SequencedEvent :=
  log.filter fun se => seqBefore < se.seqId

inductive Stage (α : Type) where
  | entry
  /-- holds the engine lock -/
  | copying
  | copied (batch : List α)

/-- Where a handler stands; `reading` and `locked` hold the engine lock. -/
inductive Phase where
  | idle
  | reading
  | locked (request : Request)
  | publishing (seqBefore : Nat) (stage : Stage WsEnvelope)
  | persisting (seqBefore : Nat) (stage : Stage SequencedEvent)
  | finished

def Phase.isDone : Phase → Bool
  | .idle | .finished => true
  | _ => false

structure Server where
  engine : Engine
  /-- the handler that holds the engine lock -/
  lock : Option Nat
  handlers : Nat → Phase
  /-- the table `sequenced_events` -/
  stored : List SequencedEvent
  /-- the envelopes sent on the broadcast channel, oldest first -/
  sent : List WsEnvelope

inductive Action where
  | lock (request : Request)
  | read
  | proceed
  | fail

namespace Server

def start (e : Engine) : Server := ⟨e, none, fun _ => .idle, e.log, []⟩

def move (s : Server) (i : Nat) (phase : Phase) : Server :=
  { s with handlers := Function.update s.handlers i phase }

def acquire (s : Server) (i : Nat) (phase : Phase) : Server :=
  { s.move i phase with lock := some i }

def release (s : Server) (i : Nat) (phase : Phase) : Server :=
  { s.move i phase with lock := none }

/-- The engine call of the handler, which then releases the lock. -/
def callEngine (crypto : Crypto) (s : Server) (i : Nat)
    (request : Request) : Server :=
  let (e, seqBefore) := request.call crypto s.engine
  let s := { s with engine := e }
  match seqBefore with
  | some seqBefore => s.release i (.publishing seqBefore .entry)
  | none => s.release i .finished

theorem callEngine_stored (crypto : Crypto) (s : Server) (i : Nat)
    (request : Request) :
    (s.callEngine crypto i request).stored = s.stored := by
  unfold callEngine
  rcases request.call crypto s.engine with ⟨e, _ | seqBefore⟩ <;> rfl

theorem callEngine_sent (crypto : Crypto) (s : Server) (i : Nat)
    (request : Request) : (s.callEngine crypto i request).sent = s.sent := by
  unfold callEngine
  rcases request.call crypto s.engine with ⟨e, _ | seqBefore⟩ <;> rfl

theorem callEngine_engine (crypto : Crypto) (s : Server) (i : Nat)
    (request : Request) :
    (s.callEngine crypto i request).engine =
      (request.call crypto s.engine).1 := by
  unfold callEngine
  rcases request.call crypto s.engine with ⟨e, _ | seqBefore⟩ <;> rfl

def step (crypto : Crypto) (s : Server) (i : Nat) (action : Action) :
    Option Server :=
  match action, s.handlers i, s.lock with
  | .lock request, .idle, none => some (s.acquire i (.locked request))
  | .read, .idle, none => some (s.acquire i .reading)
  | .proceed, .reading, _ => some (s.release i .finished)
  | .proceed, .locked request, _ => some (s.callEngine crypto i request)
  -- `publish_since`
  | .proceed, .publishing seqBefore .entry, none =>
      some (s.acquire i (.publishing seqBefore .copying))
  | .proceed, .publishing seqBefore .entry, some _ =>
      some (s.move i (.persisting seqBefore .entry))
  | .proceed, .publishing seqBefore .copying, _ =>
      let envelopes :=
        (eventsSince s.engine.log seqBefore).flatMap WsEnvelope.fromSequenced
      some (s.release i (.publishing seqBefore (.copied envelopes)))
  | .proceed, .publishing seqBefore (.copied (envelope :: rest)), _ =>
      some { s.move i (.publishing seqBefore (.copied rest)) with
        sent := s.sent ++ [envelope] }
  | .proceed, .publishing seqBefore (.copied []), _ =>
      some (s.move i (.persisting seqBefore .entry))
  -- `persist_since`
  | .proceed, .persisting seqBefore .entry, none =>
      some (s.acquire i (.persisting seqBefore .copying))
  | .proceed, .persisting _ .entry, some _ => some (s.move i .finished)
  | .proceed, .persisting seqBefore .copying, _ =>
      some (s.release i
        (.persisting seqBefore (.copied (eventsSince s.engine.log seqBefore))))
  | .proceed, .persisting _ (.copied events), _ =>
      some { s.move i .finished with
        stored := PgStore.appendEvents s.stored events }
  | .fail, .persisting _ (.copied _), _ => some (s.move i .finished)
  | _, _, _ => none

/-- What a step can do, one constructor for each line of `step`. -/
inductive Move (crypto : Crypto) (s : Server) (i : Nat) : Action → Server → Prop
  | lock (request : Request) (phase : s.handlers i = .idle)
      (free : s.lock = none) :
      Move crypto s i (.lock request) (s.acquire i (.locked request))
  | read (phase : s.handlers i = .idle) (free : s.lock = none) :
      Move crypto s i .read (s.acquire i .reading)
  | unlock (phase : s.handlers i = .reading) :
      Move crypto s i .proceed (s.release i .finished)
  | call {request : Request} (phase : s.handlers i = .locked request) :
      Move crypto s i .proceed (s.callEngine crypto i request)
  | tryPublish {seqBefore : Nat}
      (phase : s.handlers i = .publishing seqBefore .entry)
      (free : s.lock = none) :
      Move crypto s i .proceed (s.acquire i (.publishing seqBefore .copying))
  | skipPublish {seqBefore holder : Nat}
      (phase : s.handlers i = .publishing seqBefore .entry)
      (held : s.lock = some holder) :
      Move crypto s i .proceed (s.move i (.persisting seqBefore .entry))
  | collect {seqBefore : Nat}
      (phase : s.handlers i = .publishing seqBefore .copying) :
      Move crypto s i .proceed (s.release i (.publishing seqBefore
        (.copied ((eventsSince s.engine.log seqBefore).flatMap
          WsEnvelope.fromSequenced))))
  | send {seqBefore : Nat} {envelope : WsEnvelope} {rest : List WsEnvelope}
      (phase : s.handlers i = .publishing seqBefore
        (.copied (envelope :: rest))) :
      Move crypto s i .proceed
        { s.move i (.publishing seqBefore (.copied rest)) with
          sent := s.sent ++ [envelope] }
  | published {seqBefore : Nat}
      (phase : s.handlers i = .publishing seqBefore (.copied [])) :
      Move crypto s i .proceed (s.move i (.persisting seqBefore .entry))
  | tryPersist {seqBefore : Nat}
      (phase : s.handlers i = .persisting seqBefore .entry)
      (free : s.lock = none) :
      Move crypto s i .proceed (s.acquire i (.persisting seqBefore .copying))
  | skipPersist {seqBefore holder : Nat}
      (phase : s.handlers i = .persisting seqBefore .entry)
      (held : s.lock = some holder) :
      Move crypto s i .proceed (s.move i .finished)
  | copy {seqBefore : Nat}
      (phase : s.handlers i = .persisting seqBefore .copying) :
      Move crypto s i .proceed
        (s.release i (.persisting seqBefore
          (.copied (eventsSince s.engine.log seqBefore))))
  | commit {seqBefore : Nat} {events : List SequencedEvent}
      (phase : s.handlers i = .persisting seqBefore (.copied events)) :
      Move crypto s i .proceed
        { s.move i .finished with
          stored := PgStore.appendEvents s.stored events }
  | rollback {seqBefore : Nat} {events : List SequencedEvent}
      (phase : s.handlers i = .persisting seqBefore (.copied events)) :
      Move crypto s i .fail (s.move i .finished)

theorem step_move {crypto : Crypto} {s s' : Server} {i : Nat} {action : Action}
    (h : s.step crypto i action = some s') : s.Move crypto i action s' := by
  unfold step at h
  split at h
  all_goals cases h
  · exact .lock _ ‹_› ‹_›
  · exact .read ‹_› ‹_›
  · exact .unlock ‹_›
  · exact .call ‹_›
  · exact .tryPublish ‹_› ‹_›
  · exact .skipPublish ‹_› ‹_›
  · exact .collect ‹_›
  · exact .send ‹_›
  · exact .published ‹_›
  · exact .tryPersist ‹_› ‹_›
  · exact .skipPersist ‹_› ‹_›
  · exact .copy ‹_›
  · exact .commit ‹_›
  · exact .rollback ‹_›

/-- The server draws order ids that were not accepted before. -/
def Admits (s : Server) (i : Nat) : Prop :=
  match s.handlers i with
  | .locked request => ∀ op ∈ request.op s.engine, s.engine.Admits op
  | _ => True

def Step (crypto : Crypto) (s : Server) (label : Nat × Action)
    (s' : Server) : Prop :=
  s.Admits label.1 ∧ s.step crypto label.1 label.2 = some s'

instance (s : Server) (i : Nat) : Decidable (s.Admits i) := by
  unfold Admits
  cases s.handlers i <;> infer_instance

/--
The labelled steps one after the other, as long as every state passes the check.
-/
def runAll (crypto : Crypto) (check : Server → Bool) (s : Server)
    (labels : List (Nat × Action)) : Option Server :=
  labels.foldlM (fun s label =>
    if s.Admits label.1 then (s.step crypto label.1 label.2).filter check
    else none) s

theorem runAll_run {crypto : Crypto} {check : Server → Bool} {init s : Server}
    {labels : List (Nat × Action)}
    (h : init.runAll crypto check labels = some s) :
    Run (fun s label s' => s.Step crypto label s' ∧ check s' = true) init
      labels s := by
  refine Run.of_foldlM (fun s label s' hnext => ?_) h
  split at hnext
  · next hadmits =>
      obtain ⟨hstep, hcheck⟩ := Option.filter_eq_some_iff.mp hnext
      exact ⟨⟨hadmits, hstep⟩, hcheck⟩
  · cases hnext

def AllFinished (s : Server) : Prop := ∀ i, (s.handlers i).isDone = true

theorem Move.handlers_of_ne {crypto : Crypto} {s s' : Server} {i j : Nat}
    {action : Action} (h : s.Move crypto i action s') (hj : j ≠ i) :
    s'.handlers j = s.handlers j := by
  cases h with
  | @call request phase =>
      unfold callEngine
      rcases request.call crypto s.engine with ⟨e, _ | seqBefore⟩ <;>
        exact Function.update_of_ne hj _ _
  | _ => exact Function.update_of_ne hj _ _

theorem Step.run_allFinished {crypto : Crypto} {e : Engine} {s : Server}
    {labels : List (Nat × Action)} (h : Run (Step crypto) (start e) labels s)
    (hdone : ∀ label ∈ labels, (s.handlers label.1).isDone = true) :
    s.AllFinished := by
  have hframe : ∀ s label s', Step crypto s label s' → ∀ i, i ≠ label.1 →
      s'.handlers i = s.handlers i :=
    fun _ _ _ hs _ hi => (step_move hs.2).handlers_of_ne hi
  exact h.forall_phase (P := (·.isDone = true)) hframe (fun _ => rfl) hdone

end Server

end ClobApi
