import ClobApi.Engine.Intake
import ClobApi.Engine.Writes
import ClobApi.Foundation.Trace

/-!
# Acceptances

The signed orders that a run accepts, each with the order it logs, and what the
nonce table and the idempotency table remember of them.
-/

namespace ClobApi

open Foundation

namespace Engine

def acceptance (crypto : Crypto) (e : Engine) :
    Op → Option (SignedOrder × Order)
  | .processOrder signed env =>
      match e.checkIntake crypto signed env.nowMs,
        e.sequencer.idempotencyCheck signed.traderId signed.clientOrderId,
        e.state.checkAndUpdateNonce signed.traderId signed.nonce with
      | .ok (), none, .ok _ =>
          some (signed, buildOrder crypto signed env e.sequencer.peekNextSeqId)
      | _, _, _ => none
  | _ => none

def acceptances (crypto : Crypto) : Engine → List Op →
    List (SignedOrder × Order) :=
  emissions (fun e op => (e.apply crypto op).1) fun e op =>
    (e.acceptance crypto op).toList

variable {crypto : Crypto} {e : Engine} {signed : SignedOrder} {env : CallEnv}

theorem acceptance_of_submits (h : Submits crypto e signed env) :
    e.acceptance crypto (.processOrder signed env) =
      some (signed,
        buildOrder crypto signed env e.sequencer.peekNextSeqId) := by
  simp only [acceptance, h.intake, h.unseen, checkAndUpdateNonce_of_lt h.nonce]

theorem acceptance_of_not_submits (h : ¬ Submits crypto e signed env) :
    e.acceptance crypto (.processOrder signed env) = none := by
  unfold acceptance
  cases hintake : e.checkIntake crypto signed env.nowMs with
  | error error => simp [hintake]
  | ok =>
      cases hunseen :
        e.sequencer.idempotencyCheck signed.traderId signed.clientOrderId with
      | some record => simp [hunseen]
      | none =>
          have hnonce : ¬ e.state.lastNonce signed.traderId < signed.nonce :=
            fun hlt => h ⟨hintake, hunseen, hlt⟩
          simp [StateStore.checkAndUpdateNonce, UInt64.not_lt.mp hnonce]

theorem acceptance_eq_some {op : Op} {accepted : SignedOrder × Order} :
    e.acceptance crypto op = some accepted ↔ ∃ signed env,
      op = .processOrder signed env ∧ Submits crypto e signed env ∧
      accepted =
        (signed, buildOrder crypto signed env e.sequencer.peekNextSeqId) := by
  constructor
  · intro h
    cases op with
    | processOrder signed env =>
        by_cases hsubmits : Submits crypto e signed env
        · rw [acceptance_of_submits hsubmits, Option.some.injEq] at h
          exact ⟨signed, env, rfl, hsubmits, h.symm⟩
        · rw [acceptance_of_not_submits hsubmits] at h
          cases h
    | _ => cases h
  · rintro ⟨signed, env, rfl, hsubmits, rfl⟩
    exact acceptance_of_submits hsubmits

theorem acceptances_append (crypto : Crypto) (ops : List Op) (op : Op) :
    e.acceptances crypto (ops ++ [op]) =
      e.acceptances crypto ops ++
        ((e.applyAll crypto ops).acceptance crypto op).toList :=
  emissions_append _ _ e ops op

/-! ## The accepted orders of the log -/

theorem accepted_apply {op : Op} (hadmits : e.Admits op) :
    accepted (e.apply crypto op).1.log =
      accepted e.log ++
        ((e.acceptance crypto op).map Prod.snd).toList := by
  cases op with
  | processOrder signed env =>
      by_cases hsubmits : Submits crypto e signed env
      · rw [acceptance_of_submits hsubmits]
        cases hbook : e.books.get? signed.marketId.value with
        | none =>
            simp only [apply, hsubmits.panics hbook]
            exact afterAccept_writes.accepted
        | some book =>
            obtain ⟨e', hdone, hexecuted⟩ :=
              hsubmits.completes hbook rfl rfl
            simp only [apply, hdone]
            exact hexecuted.accepted
      · simp [apply, (processOrder_rejects hsubmits).1,
          acceptance_of_not_submits hsubmits]
  | _ =>
      rw [(apply_quietly hadmits (by simp)).accepted]
      exact (List.append_nil _).symm

end Engine

/-! ## Nonces -/

theorem raiseNonce_lastNonce (state : StateStore) (traderId traderId' : String)
    (nonce : UInt64) :
    state.lastNonce traderId' ≤
      (Replay.raiseNonce state traderId nonce).lastNonce traderId' := by
  unfold Replay.raiseNonce
  split
  · next hlt =>
      simp only [StateStore.lastNonce, HashMap.get?_insert]
      split
      · next htrader =>
          subst htrader
          exact UInt64.le_of_lt hlt
      · exact UInt64.le_refl _
  · exact UInt64.le_refl _

theorem le_raiseNonce (state : StateStore) (traderId : String)
    (nonce : UInt64) :
    nonce ≤ (Replay.raiseNonce state traderId nonce).lastNonce traderId := by
  unfold Replay.raiseNonce
  split
  · simp [StateStore.lastNonce]
  · next hle => exact UInt64.not_lt.mp hle

theorem stateStep_lastNonce (state : StateStore) (se : SequencedEvent)
    (traderId : String) :
    state.lastNonce traderId ≤ (stateStep state se).lastNonce traderId := by
  unfold stateStep
  cases se.event with
  | orderAccepted order => exact raiseNonce_lastNonce state _ _ _
  | _ => exact UInt64.le_refl _

theorem accepted_nonce_le {log : List SequencedEvent} {order : Order}
    (h : order ∈ accepted log) :
    order.nonce ≤ (stateInLog log).lastNonce order.traderId := by
  induction log using List.reverseRecOn with
  | nil => cases h
  | append_singleton log se ih =>
      rw [accepted_append, List.mem_append, Option.mem_toList] at h
      rw [stateInLog_append]
      rcases h with hold | hnew
      · exact UInt64.le_trans (ih hold) (stateStep_lastNonce _ _ _)
      · cases hev : se.event with
        | orderAccepted new =>
            obtain rfl : new = order := by simpa [hev, Event.accepts] using hnew
            simp only [stateStep, hev]
            exact le_raiseNonce _ _ _
        | _ => simp [hev, Event.accepts] at hnew

theorem lastNonce_lt_iff (log : List SequencedEvent) (traderId : String)
    (nonce : UInt64) : (stateInLog log).lastNonce traderId < nonce ↔
      0 < nonce ∧ ∀ order ∈ accepted log, order.traderId = traderId →
        order.nonce < nonce := by
  constructor
  · refine fun hlast => ⟨UInt64.lt_of_le_of_lt UInt64.zero_le hlast, ?_⟩
    rintro order horder rfl
    exact UInt64.lt_of_le_of_lt (accepted_nonce_le horder) hlast
  · rintro ⟨hpositive, hall⟩
    induction log using List.reverseRecOn with
    | nil => exact hpositive
    | append_singleton log se ih =>
        have hbefore := ih fun order horder => hall order (by
          rw [accepted_append]
          exact List.mem_append_left _ horder)
        rw [stateInLog_append]
        cases hevent : se.event with
        | orderAccepted new =>
            have hnew := hall new (by
              rw [accepted_append, hevent]
              exact List.mem_append_right _ (.head _))
            simp only [stateStep, hevent, Replay.raiseNonce]
            split
            · simp only [StateStore.lastNonce, HashMap.get?_insert]
              split
              · next htrader => exact hnew htrader.symm
              · exact hbefore
            · exact hbefore
        | _ =>
            simp only [stateStep, hevent]
            exact hbefore

/-! ## The acceptances of a run -/

section Runs

variable {crypto : Crypto} {ops : List Op} {e : Engine}

theorem acceptances_built {signed : SignedOrder} {order : Order} {init : Engine}
    (h : (signed, order) ∈ init.acceptances crypto ops) :
    signed.Complete ∧ signed.Authentic crypto ∧
      ∃ env seqId, order = Engine.buildOrder crypto signed env seqId := by
  obtain ⟨e, op, hmem⟩ := exists_of_mem_emissions h
  obtain ⟨signed', env, -, hsubmits, hpair⟩ :=
    Engine.acceptance_eq_some.mp (Option.mem_toList.mp hmem)
  obtain ⟨rfl, horder⟩ := Prod.mk.inj hpair
  have hintake := Engine.checkIntake_ok_iff.mp hsubmits.intake
  exact ⟨hintake.complete, hintake.authentic, env, _, horder⟩

/-- The run has accepted exactly what its log says. -/
theorem Step.run_accepted (h : Run (Step crypto) .new ops e) :
    accepted e.log = (Engine.new.acceptances crypto ops).map Prod.snd := by
  induction h with
  | start => rfl
  | @next ops e op e' hrun hstep ih =>
      obtain ⟨hadmits, rfl⟩ := hstep
      rw [Engine.accepted_apply hadmits, Engine.acceptances_append,
        List.map_append, ← Step.run_applyAll hrun, ih]
      cases e.acceptance crypto op <;> rfl

/-- A trader's nonces increase, also across recoveries. -/
theorem Step.run_nonces (h : Run (Step crypto) .new ops e) :
    (Engine.new.acceptances crypto ops).Pairwise fun a b =>
      a.1.traderId = b.1.traderId → a.1.nonce < b.1.nonce := by
  induction h with
  | start => exact .nil
  | @next ops e op e' hrun hstep ih =>
      rw [Engine.acceptances_append, ← Step.run_applyAll hrun]
      cases haccept : e.acceptance crypto op with
      | none => simpa using ih
      | some new =>
          rw [Option.toList_some, List.pairwise_append]
          refine ⟨ih, List.pairwise_singleton _ _, fun old hold b hb => ?_⟩
          obtain rfl := List.mem_singleton.mp hb
          obtain ⟨signed, env, -, hsubmits, rfl⟩ :=
            Engine.acceptance_eq_some.mp haccept
          intro htrader
          obtain ⟨-, -, env', seqId, horder⟩ := acceptances_built hold
          have hmem : old.2 ∈ accepted e.log := by
            rw [Step.run_accepted hrun]
            exact List.mem_map_of_mem hold
          have hle := accepted_nonce_le hmem
          rw [← (Step.run_inv hrun).state.lastNonce, horder] at hle
          have hlt := hsubmits.nonce
          rw [← htrader] at hlt
          exact UInt64.lt_of_le_of_lt hle hlt

end Runs

end ClobApi
