import ClobApi.Engine.Preservation
import ClobApi.Foundation.Trace

/-!
# Failed operations

An operation that fails gives the engine back as it was, so that the others can
be run without it.
-/

namespace ClobApi

open Foundation

def Reply.failed : Reply → Bool
  | .order (.err _) => true
  | .cancel (.err _) => true
  | .cancel (.ok result) => result.wasAlreadyClosed
  | .admin (.error _) => true
  | .restored (.error _) => true
  | _ => false

section Failures

variable {e : Engine}

theorem processOrder_failed {crypto : Crypto} {signed : SignedOrder}
    {env : CallEnv} {error : EngineError}
    (h : (e.processOrder crypto signed env).2 = .err error) :
    (e.processOrder crypto signed env).1 = e := by
  obtain ⟨outcome, hsame, -⟩ | ⟨-, hexecute⟩ :=
    Engine.processOrder_cases crypto e signed env
  · rw [hsame]
  · -- past the nonce check a call completes or panics
    rw [hexecute] at h
    unfold Engine.executeOrder at h
    split at h
    · cases h
    · dsimp only at h
      split at h <;> cases h

theorem processCancel_failed (orderId : OrderId) (traderId : String)
    (wall : Nat → UInt64) :
    (Reply.cancel (e.processCancel orderId traderId wall).2).failed = true →
      (e.processCancel orderId traderId wall).1 = e := by
  obtain ⟨hsame, -⟩ | ⟨marketId, book, order, hcancels⟩ :=
    Engine.processCancel_cases e orderId traderId wall
  · exact fun _ => hsame
  · rw [hcancels.processCancel_eq]
    intro hfailed
    cases hfailed

theorem switchMarket_failed (marketId : String) (source target : MarketStatus)
    (event : Event) (wall : Nat → UInt64) {error : AdminError} :
    (e.switchMarket marketId source target event wall).2 = .error error →
      (e.switchMarket marketId source target event wall).1 = e := by
  obtain ⟨error, hrefused⟩ | ⟨market, hfind, htarget, hsource⟩ :=
    Engine.switchMarket_cases e marketId source target event wall
  · rw [hrefused]
    exact fun _ => rfl
  · rw [Engine.switchMarket_eq hfind htarget hsource]
    intro herror
    cases herror

theorem cancelAllOrders_failed (marketId : String) (wall : Nat → UInt64)
    {error : AdminError} :
    (e.cancelAllOrders marketId wall).2 = .error error →
      (e.cancelAllOrders marketId wall).1 = e := by
  unfold Engine.cancelAllOrders
  split
  · exact fun _ => rfl
  · exact fun herror => by cases herror

theorem restoreFromEvents_failed (shuffle : Shuffle Order)
    (events : List SequencedEvent) {error : ReplayError} :
    (e.restoreFromEvents shuffle events).2 = .error error →
      (e.restoreFromEvents shuffle events).1 = e := by
  unfold Engine.restoreFromEvents
  split
  · exact fun _ => rfl
  split
  · exact fun _ => rfl
  · exact fun herror => by cases herror

end Failures

theorem apply_failed {crypto : Crypto} {e : Engine} (op : Op)
    (h : (e.apply crypto op).2.failed = true) :
    (e.apply crypto op).1 = e := by
  cases op with
  | addMarket config => cases h
  | processOrder signed env =>
      cases houtcome : (e.processOrder crypto signed env).2 with
      | err error => exact processOrder_failed houtcome
      | ok result => simp [Engine.apply, houtcome, Reply.failed] at h
      | panic => simp [Engine.apply, houtcome, Reply.failed] at h
  | processCancel orderId traderId wall =>
      exact processCancel_failed orderId traderId wall h
  | pauseMarket marketId triggeredBy wall =>
      cases hanswer : (e.pauseMarket marketId triggeredBy wall).2 with
      | error error => exact switchMarket_failed _ _ _ _ _ hanswer
      | ok seqId => simp [Engine.apply, hanswer, Reply.failed] at h
  | resumeMarket marketId triggeredBy wall =>
      cases hanswer : (e.resumeMarket marketId triggeredBy wall).2 with
      | error error => exact switchMarket_failed _ _ _ _ _ hanswer
      | ok seqId => simp [Engine.apply, hanswer, Reply.failed] at h
  | cancelAllOrders marketId wall =>
      cases hanswer : (e.cancelAllOrders marketId wall).2 with
      | error error => exact cancelAllOrders_failed _ _ hanswer
      | ok count => simp [Engine.apply, hanswer, Reply.failed] at h
  | restoreFromEvents shuffle events =>
      cases hanswer : (e.restoreFromEvents shuffle events).2 with
      | error error => exact restoreFromEvents_failed _ _ hanswer
      | ok _ => simp [Engine.apply, hanswer, Reply.failed] at h

/--
A failed operation leaves the engine as it was, and a session without its failed
operations gives the same answers and ends in the same engine.
-/
theorem failures_invisible (crypto : Crypto) (e : Engine) :
    (∀ op, (e.apply crypto op).2.failed = true →
        (e.apply crypto op).1 = e) ∧
      ∀ ops,
        answers (Engine.apply crypto) (fun e op =>
            !(e.apply crypto op).2.failed) e ops =
          allAnswers (Engine.apply crypto) e
            (kept (fun e op => (e.apply crypto op).1) (fun e op =>
              !(e.apply crypto op).2.failed) e ops) ∧
        e.applyAll crypto ops = e.applyAll crypto
          (kept (fun e op => (e.apply crypto op).1) (fun e op =>
            !(e.apply crypto op).2.failed) e ops) := by
  refine ⟨fun op => apply_failed op, fun ops => ?_⟩
  refine answers_kept (R := Eq) ?_ ?_ rfl ops
  · rintro e _ op rfl -
    exact ⟨rfl, rfl⟩
  · rintro e _ op rfl hfailed
    exact apply_failed op (by simpa using hfailed)

theorem Sample.failures_invisible_unknown :
    ((Sample.after Sample.traded).apply Sample.crypto
      (.processCancel ⟨"nobody"⟩ "8a88" Sample.wall)).1 =
      Sample.after Sample.traded :=
  (failures_invisible Sample.crypto (Sample.after Sample.traded)).1 _
    (by decide +kernel)

end ClobApi
