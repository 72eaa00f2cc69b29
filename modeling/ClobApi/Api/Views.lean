import ClobApi.Api.Handlers
import ClobApi.Engine.Writes
import ClobApi.Foundation.Stream

/-!
# Persisting and publishing as shipping

To Postgres and to the broadcast channel the handlers are workers that ship the
tail of the log; every step of a handler is a step of both workers.
-/

namespace ClobApi

open Foundation

/-! ## Routes -/

def rows : Rendering SequencedEvent SequencedEvent where
  entryNumber := SequencedEvent.seqId
  render := fun se => [se]
  number := SequencedEvent.seqId
  render_ne_nil := by simp
  render_nodup := by simp
  render_number := by simp

def table : Route SequencedEvent SequencedEvent (List SequencedEvent) where
  toRendering := rows
  put := PgStore.appendEvents
  Holds := PgStore.Stores
  holds_put := PgStore.stores_appendEvents

@[simp] theorem renderAll_rows (log : List SequencedEvent) :
    rows.renderAll log = log := by
  simp [Rendering.renderAll, rows]

theorem eventsSince_eq {log : List SequencedEvent} (h : rows.Numbered log)
    (seqBefore : Nat) : eventsSince log seqBefore = log.drop seqBefore := by
  have htake : ∀ se ∈ log.take seqBefore, ¬ seqBefore < se.seqId := by
    intro se hse
    have hle := (((h.take seqBefore).mem_tail 0 se.seqId).mp ⟨se, hse, rfl⟩).2
    rw [List.length_take] at hle
    omega
  have hdrop : ∀ se ∈ log.drop seqBefore, seqBefore < se.seqId := fun se hse =>
    ((h.mem_tail seqBefore se.seqId).mp ⟨se, hse, rfl⟩).1
  calc eventsSince log seqBefore
      = (log.take seqBefore ++ log.drop seqBefore).filter fun se =>
        seqBefore < se.seqId := by
        rw [List.take_append_drop, eventsSince]
    _ = [] ++ log.drop seqBefore := by
        rw [List.filter_append,
          List.filter_eq_nil_iff.mpr (by simpa using htake),
          List.filter_eq_self.mpr (by simpa using hdrop)]
    _ = log.drop seqBefore := List.nil_append _

/-! ## Views -/

def Phase.toStore : Phase → Debt SequencedEvent
  | .publishing seqBefore _ => .tail seqBefore
  | .persisting _ (.copied events) => .batch events
  | .persisting seqBefore _ => .tail seqBefore
  | .idle | .reading | .locked _ | .finished => .batch []

def Phase.toSend : Phase → Debt WsEnvelope
  | .publishing _ (.copied envelopes) => .batch envelopes
  | .publishing seqBefore _ => .tail seqBefore
  | .idle | .reading | .locked _ | .persisting .. | .finished => .batch []

/-! ## The engine call of a handler -/

namespace Request

variable {crypto : Crypto} {e : Engine} {request : Request}

theorem call_log (crypto : Crypto)
    (hadmits : ∀ op ∈ request.op e, e.Admits op) :
    e.log <+: (request.call crypto e).1.log := by
  unfold call
  cases hop : request.op e with
  | none => exact List.prefix_refl _
  | some op => exact apply_log crypto (hadmits op hop)

theorem call_seqBefore (hnext : e.sequencer.nextSeqId = e.log.length + 1)
    {seqBefore : Nat} (h : (request.call crypto e).2 = some seqBefore) :
    seqBefore = e.log.length := by
  unfold call at h
  have hpeek : e.sequencer.peekNextSeqId - 1 = e.log.length := by
    simp [Sequencer.peekNextSeqId, hnext]
  cases hop : request.op e with
  | none => simp [hop] at h
  | some op =>
      simp only [hop, hpeek] at h
      split at h
      · exact (Option.some.inj h).symm
      · cases h

end Request

namespace Server

/-- The server as one kind of debt and one sink show it. -/
def view {β σ : Type} (debt : Phase → Debt β) (sink : σ) (s : Server) :
    Shipping Nat SequencedEvent β σ :=
  ⟨s.engine.log, fun i => debt (s.handlers i), sink⟩

def storing (s : Server) :
    Shipping Nat SequencedEvent SequencedEvent (List SequencedEvent) :=
  s.view Phase.toStore s.stored

def sending (s : Server) :
    Shipping Nat SequencedEvent WsEnvelope (List WsEnvelope) :=
  s.view Phase.toSend s.sent

def storeAct (crypto : Crypto) (s : Server) (i : Nat) (action : Action) :
    Act SequencedEvent :=
  match action, s.handlers i, s.lock with
  | .proceed, .locked request, _ =>
      if (request.call crypto s.engine).2.isSome then .append else .leave
  | .proceed, .persisting _ .entry, some _ => .leave
  | .proceed, .persisting _ .copying, _ => .copy
  | .proceed, .persisting _ (.copied events), _ => .put events
  | .fail, .persisting _ (.copied _), _ => .fail
  | _, _, _ => .rest

def sendAct (crypto : Crypto) (s : Server) (i : Nat) (action : Action) :
    Act WsEnvelope :=
  match action, s.handlers i, s.lock with
  | .proceed, .locked request, _ =>
      if (request.call crypto s.engine).2.isSome then .append else .leave
  | .proceed, .publishing _ .entry, some _ => .leave
  | .proceed, .publishing _ .copying, _ => .copy
  | .proceed, .publishing _ (.copied (envelope :: _)), _ => .put [envelope]
  | _, _, _ => .rest

variable {crypto : Crypto} {s s' : Server} {i : Nat} {action : Action}

section View

variable {β σ : Type} {debt : Phase → Debt β} {sink : σ}

theorem view_move (s : Server) (i : Nat) (phase : Phase) :
    (s.move i phase).view debt sink =
      ⟨s.engine.log,
        Function.update (s.view debt sink).debts i (debt phase), sink⟩ :=
  congrArg (fun debts =>
    (⟨s.engine.log, debts, sink⟩ : Shipping Nat SequencedEvent β σ))
    (Function.comp_update debt s.handlers i phase)

theorem view_step {route : Route SequencedEvent β σ} {act : Act β}
    {phase : Phase} {sink' : σ} (h : Ship route i act (s.view debt sink)
      ⟨s.engine.log,
        Function.update (s.view debt sink).debts i (debt phase), sink'⟩) :
    Ship route i act (s.view debt sink) ((s.move i phase).view debt sink') := by
  rw [view_move]
  exact h

theorem view_rest {route : Route SequencedEvent β σ} {phase : Phase}
    (h : debt phase = debt (s.handlers i)) :
    Ship route i .rest (s.view debt sink)
      ((s.move i phase).view debt sink) := by
  have hdebt : debt phase = (s.view debt sink).debts i := h
  refine view_step ?_
  rw [Function.update_eq_self_iff.mpr hdebt]
  exact .rest _

theorem view_call {route : Route SequencedEvent β σ} {request : Request}
    (phase : s.handlers i = .locked request) (hadmits : s.Admits i)
    (hnext : s.engine.sequencer.nextSeqId = s.engine.log.length + 1)
    (hlocked : debt (.locked request) = .batch [])
    (hfinished : debt .finished = .batch [])
    (hentry : ∀ seqBefore,
      debt (.publishing seqBefore .entry) = .tail seqBefore) :
    Ship route i
      (if (request.call crypto s.engine).2.isSome then .append else .leave)
      (s.view debt sink) ((s.callEngine crypto i request).view debt sink) := by
  have hclear : (s.view debt sink).debts i = .batch [] := by
    rw [← hlocked, ← phase]
    rfl
  unfold Admits at hadmits
  rw [phase] at hadmits
  obtain ⟨new, hnew⟩ := Request.call_log crypto hadmits
  unfold callEngine
  cases hcall : request.call crypto s.engine with
  | mk e seqBefore =>
      rw [hcall] at hnew
      have hlog : e.log = s.engine.log ++ new := hnew.symm
      have hview : ∀ phase,
          (({ s with engine := e } : Server).release i phase).view debt sink =
          ⟨s.engine.log ++ new,
            Function.update (s.view debt sink).debts i (debt phase), sink⟩ :=
        fun phase => hlog ▸ view_move { s with engine := e } i phase
      cases seqBefore with
      | none =>
          dsimp only
          rw [hview, hfinished]
          exact .leave new (by rw [hclear]; rfl)
      | some seqBefore =>
          dsimp only
          have hseq : seqBefore = s.engine.log.length :=
            Request.call_seqBefore hnext (congrArg Prod.snd hcall)
          rw [hview, hentry, hseq]
          exact .append new hclear

end View

theorem Move.storing (h : s.Move crypto i action s')
    (hlog : rows.Numbered s.engine.log)
    (hnext : s.engine.sequencer.nextSeqId = s.engine.log.length + 1)
    (hadmits : s.Admits i) :
    Ship table i (s.storeAct crypto i action) s.storing s'.storing := by
  unfold storeAct
  cases h with
  | lock request phase free => exact view_rest (by rw [phase]; rfl)
  | read phase free => exact view_rest (by rw [phase]; rfl)
  | unlock phase =>
      simp only [phase]
      exact view_rest (by rw [phase]; rfl)
  | call phase =>
      simp only [phase]
      rw [Server.storing, Server.storing, callEngine_stored]
      exact view_call phase hadmits hnext rfl rfl fun _ => rfl
  | tryPublish phase free =>
      simp only [phase]
      exact view_rest (by rw [phase]; rfl)
  | skipPublish phase held =>
      simp only [phase]
      exact view_rest (by rw [phase]; rfl)
  | collect phase =>
      simp only [phase]
      exact view_rest (by rw [phase]; rfl)
  | send phase =>
      simp only [phase]
      exact view_rest (by rw [phase]; rfl)
  | published phase =>
      simp only [phase]
      exact view_rest (by rw [phase]; rfl)
  | tryPersist phase free =>
      simp only [phase, free]
      exact view_rest (by rw [phase]; rfl)
  | skipPersist phase held =>
      simp only [phase, held]
      exact view_step
        (.leave_unchanged (congrArg (fun phase => phase.toStore.items) phase))
  | @copy seqBefore phase =>
      simp only [phase]
      rw [eventsSince_eq hlog]
      have hrows : rows.renderAll (s.engine.log.drop seqBefore) =
          s.engine.log.drop seqBefore :=
        renderAll_rows _
      refine view_step ?_
      rw [← hrows]
      exact .copy (congrArg Phase.toStore phase)
  | commit phase =>
      simp only [phase]
      exact view_step (.put_all (congrArg Phase.toStore phase))
  | rollback phase =>
      simp only [phase]
      exact view_step (.fail (congrArg Phase.toStore phase))

theorem Move.sending (h : s.Move crypto i action s')
    (hlog : rows.Numbered s.engine.log)
    (hnext : s.engine.sequencer.nextSeqId = s.engine.log.length + 1)
    (hadmits : s.Admits i) :
    Ship envelopes.stream i (s.sendAct crypto i action) s.sending
      s'.sending := by
  unfold sendAct
  cases h with
  | lock request phase free => exact view_rest (by rw [phase]; rfl)
  | read phase free => exact view_rest (by rw [phase]; rfl)
  | unlock phase =>
      simp only [phase]
      exact view_rest (by rw [phase]; rfl)
  | call phase =>
      simp only [phase]
      rw [Server.sending, Server.sending, callEngine_sent]
      exact view_call phase hadmits hnext rfl rfl fun _ => rfl
  | tryPublish phase free =>
      simp only [phase, free]
      exact view_rest (by rw [phase]; rfl)
  | skipPublish phase held =>
      simp only [phase, held]
      exact view_step
        (.leave_unchanged (congrArg (fun phase => phase.toSend.items) phase))
  | collect phase =>
      simp only [phase]
      rw [eventsSince_eq hlog]
      exact view_step (.copy (congrArg Phase.toSend phase))
  | @send seqBefore envelope rest phase =>
      simp only [phase]
      have hcopied : s.sending.debts i = .batch ([envelope] ++ rest) :=
        congrArg Phase.toSend phase
      exact view_step (.put hcopied)
  | published phase =>
      simp only [phase]
      exact view_rest (by rw [phase]; rfl)
  | tryPersist phase free =>
      simp only [phase]
      exact view_rest (by rw [phase]; rfl)
  | skipPersist phase held =>
      simp only [phase]
      exact view_rest (by rw [phase]; rfl)
  | copy phase =>
      simp only [phase]
      exact view_rest (by rw [phase]; rfl)
  | commit phase =>
      simp only [phase]
      exact view_rest (by rw [phase]; rfl)
  | rollback phase => exact view_rest (by rw [phase]; rfl)

theorem sendAct_ne_fail (crypto : Crypto) (s : Server) (i : Nat)
    (action : Action) : s.sendAct crypto i action ≠ .fail := by
  unfold sendAct
  split
  · split <;> simp
  all_goals simp

/-! ## The engine in a run of the server -/

theorem Move.engine (h : s.Move crypto i action s') (hadmits : s.Admits i) :
    s'.engine = s.engine ∨ ∃ op, ClobApi.Step crypto s.engine op s'.engine := by
  cases h with
  | @call request phase =>
      rw [callEngine_engine]
      unfold Admits at hadmits
      rw [phase] at hadmits
      unfold Request.call
      cases hop : request.op s.engine with
      | none => exact .inl rfl
      | some op => exact .inr ⟨op, hadmits op hop, rfl⟩
  | _ => exact .inl rfl

theorem Step.run_engine {e : Engine} {ops : List Op}
    {labels : List (Nat × Action)}
    (hstart : Run (ClobApi.Step crypto) .new ops e)
    (h : Run (Server.Step crypto) (start e) labels s) :
    ∃ ops, Run (ClobApi.Step crypto) .new ops s.engine := by
  induction h with
  | start => exact ⟨ops, hstart⟩
  | next _ hstep ih =>
      obtain ⟨hadmits, hstep⟩ := hstep
      obtain ⟨ops, hrun⟩ := ih
      rcases (step_move hstep).engine hadmits with hsame | ⟨op, hop⟩
      · exact ⟨ops, hsame ▸ hrun⟩
      · exact ⟨_, hrun.next hop⟩

structure Logged (s : Server) : Prop where
  legal : LegalLog False s.engine.log
  numbered : rows.Numbered s.engine.log
  next : s.engine.sequencer.nextSeqId = s.engine.log.length + 1

theorem Step.run_logged {e : Engine} {ops : List Op}
    {labels : List (Nat × Action)}
    (hstart : Run (ClobApi.Step crypto) .new ops e)
    (h : Run (Server.Step crypto) (start e) labels s) : s.Logged := by
  obtain ⟨ops, hrun⟩ := Step.run_engine hstart h
  have hinv := ClobApi.Step.run_inv hrun
  exact ⟨hinv.legal, hinv.legal.seqIds, hinv.next⟩

theorem Step.storing {label : Nat × Action} (h : Server.Step crypto s label s')
    (hlogged : s.Logged) :
    Ship table label.1 (s.storeAct crypto label.1 label.2) s.storing
      s'.storing :=
  (step_move h.2).storing hlogged.numbered hlogged.next h.1

theorem Step.sending {label : Nat × Action} (h : Server.Step crypto s label s')
    (hlogged : s.Logged) :
    Ship envelopes.stream label.1 (s.sendAct crypto label.1 label.2) s.sending
      s'.sending :=
  (step_move h.2).sending hlogged.numbered hlogged.next h.1

theorem AllFinished.storing (h : s.AllFinished) (i : Nat) :
    s.storing.debts i = .batch [] := by
  have hdone := h i
  change (s.handlers i).toStore = .batch []
  cases hi : s.handlers i with
  | idle => rfl
  | finished => rfl
  | _ => simp [hi, Phase.isDone] at hdone

theorem AllFinished.sending (h : s.AllFinished) (i : Nat) :
    s.sending.debts i = .batch [] := by
  have hdone := h i
  change (s.handlers i).toSend = .batch []
  cases hi : s.handlers i with
  | idle => rfl
  | finished => rfl
  | _ => simp [hi, Phase.isDone] at hdone

end Server

end ClobApi
