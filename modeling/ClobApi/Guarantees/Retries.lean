import ClobApi.Engine.Filing
import ClobApi.Guarantees.Idempotency

/-!
# Retries

The intake checks stand in front of the idempotency lookup, and the answer reads
the status from the book, or takes an order that no book holds for filled.
-/

namespace ClobApi

open Foundation

namespace Engine

def RepeatsOriginal (e : Engine) (order : Order)
    (outcome : Outcome EngineError OrderResult) : Prop :=
  ∃ result logged, outcome = .ok result ∧ result.isDuplicate = true ∧
    result.original =
      ⟨order.createdSequence, order.orderId, order.orderHash⟩ ∧
    orderInLog e.log order.orderId = some logged ∧
    result.finalStatus = logged.status

/--
The book has the order under the status of the log, or has dropped an order that
was filled.
-/
def KeepsStatus (e : Engine) (order : Order) : Prop :=
  ∃ logged, orderInLog e.log order.orderId = some logged ∧
    match storedOrder e.books order.marketId.value order.orderId with
    | some live => live.status = logged.status
    | none => logged.status = .filled

end Engine

section Retries

variable {crypto : Crypto} {ops : List Op} {e : Engine} {signed : SignedOrder}
  {order : Order} {env : CallEnv}

theorem mem_accepted_of_acceptances (h : Run (Step crypto) .new ops e)
    (hmem : (signed, order) ∈ Engine.new.acceptances crypto ops) :
    order ∈ accepted e.log := by
  rw [Step.run_accepted h]
  exact List.mem_map_of_mem hmem

theorem Step.run_record (h : Run (Step crypto) .new ops e)
    (hmem : (signed, order) ∈ Engine.new.acceptances crypto ops) :
    ∃ record, e.sequencer.idempotencyCheck signed.traderId
        signed.clientOrderId = some record ∧
      record.original =
        ⟨order.createdSequence, order.orderId, order.orderHash⟩ := by
  obtain ⟨-, -, env, seqId, horder⟩ := acceptances_built hmem
  have hentry : (order.idempotencyKey,
      (⟨order.createdSequence, order.orderId, order.orderHash⟩ : Original)) ∈
        originals e.log := by
    rw [(Step.run_inv h).legal.originals_eq]
    exact List.mem_map.mpr ⟨order, mem_accepted_of_acceptances h hmem, rfl⟩
  have hget := ((Step.run_atMostOnce h).remembers _ _).mpr hentry
  rw [horder] at hget ⊢
  exact Option.map_eq_some_iff.mp hget

theorem processOrder_seen {record : IdempotencyRecord}
    (hseen : e.sequencer.idempotencyCheck signed.traderId
      signed.clientOrderId = some record) (result : OrderResult) :
    (e.processOrder crypto signed env).2 = .ok result ↔
      e.Intake crypto signed env.nowMs ∧ result = e.duplicateResult record := by
  rw [← Engine.checkIntake_ok_iff]
  unfold Engine.processOrder
  cases e.checkIntake crypto signed env.nowMs with
  | error error => simp
  | ok => simp [hseen, eq_comm]

theorem keepsStatus_iff (h : Run (Step crypto) .new ops e)
    (hmem : order ∈ accepted e.log) :
    e.KeepsStatus order ↔ ∃ logged,
      orderInLog e.log order.orderId = some logged ∧
      ((e.findOrder order.orderId).map Order.status).getD .filled =
        logged.status := by
  unfold Engine.KeepsStatus
  rw [findOrder_eq (Step.run_inv h) hmem]
  cases storedOrder e.books order.marketId.value order.orderId with
  | none => simp [eq_comm]
  | some live => simp

theorem retry_iff (h : Run (Step crypto) .new ops e)
    (hmem : (signed, order) ∈ Engine.new.acceptances crypto ops) :
    e.RepeatsOriginal order (e.processOrder crypto signed env).2 ↔
      signed.Unexpired env.nowMs ∧ e.Trades signed ∧ e.KeepsStatus order := by
  obtain ⟨hcomplete, hauthentic, -⟩ := acceptances_built hmem
  obtain ⟨record, hseen, horiginal⟩ := Step.run_record h hmem
  have hid : record.orderId = order.orderId :=
    congrArg Original.orderId horiginal
  rw [keepsStatus_iff h (mem_accepted_of_acceptances h hmem), ← hid]
  constructor
  · rintro ⟨result, logged, hok, -, -, hlogged, hstatus⟩
    obtain ⟨hintake, rfl⟩ := (processOrder_seen hseen result).mp hok
    rw [← hid] at hlogged
    exact ⟨hintake.unexpired, hintake.trades, logged, hlogged, hstatus⟩
  · rintro ⟨hunexpired, htrades, logged, hlogged, hstatus⟩
    rw [hid] at hlogged
    exact ⟨e.duplicateResult record, logged, (processOrder_seen hseen _).mpr
      ⟨⟨hcomplete, hunexpired, hauthentic, htrades⟩, rfl⟩, rfl, horiginal,
      hlogged, hstatus⟩

/--
A book that holds an order has its status right, unless `cancel_all_orders` has
gone by it.
-/
theorem keepsStatus_trading (h : Run (Step crypto) .new ops e)
    (hmem : order ∈ accepted e.log)
    (htrading : ∀ op ∈ ops, op.isTrading = true) :
    e.KeepsStatus order ↔
      (Engine.new.filings crypto order.orderId ops).getLast? = some true ∨
        ∃ logged, orderInLog e.log order.orderId = some logged ∧
          logged.status = .filled := by
  have hinv := TradingStep.run_inv (Step.run_trading h htrading)
  obtain ⟨logged, hlogged, -⟩ := hinv.legal.accepted_view hmem
  rw [← Step.run_held h, held_iff_stored hinv hmem, Engine.KeepsStatus]
  cases hstored : storedOrder e.books order.marketId.value order.orderId with
  | none => simp
  | some live =>
      obtain ⟨logged', hlogged', hmatches⟩ := hinv.sync.stored hstored
      have hstatus : logged'.status = live.status := by
        simpa [Order.core] using
          congrArg Order.status (hmatches.core trivial)
      simp [hlogged', hstatus]

/--
A retry repeats the first answer exactly if it arrives before the order expires,
its market takes the order and the book has kept its status.
-/
theorem retry_repeats_original_iff (h : Run (Step crypto) .new ops e)
    (hmem : (signed, order) ∈ Engine.new.acceptances crypto ops) :
    (∀ env, e.RepeatsOriginal order (e.processOrder crypto signed env).2 ↔
      signed.Unexpired env.nowMs ∧ e.Trades signed ∧ e.KeepsStatus order) ∧
      ((∀ op ∈ ops, op.isTrading = true) →
        (e.KeepsStatus order ↔
          (Engine.new.filings crypto order.orderId ops).getLast? = some true ∨
            ∃ logged, orderInLog e.log order.orderId = some logged ∧
              logged.status = .filled)) :=
  ⟨fun _ => retry_iff h hmem,
    keepsStatus_trading h (mem_accepted_of_acceptances h hmem)⟩

end Retries

namespace Sample

theorem traded_retry :
    (∀ env, (after traded).RepeatsOriginal askOrder
        ((after traded).processOrder crypto ask env).2 ↔
      ask.Unexpired env.nowMs ∧ (after traded).Trades ask ∧
        (after traded).KeepsStatus askOrder) ∧
      ((after traded).KeepsStatus askOrder ↔
        (Engine.new.filings crypto ⟨"ask"⟩ traded).getLast? = some true ∨
          ∃ logged, orderInLog (after traded).log ⟨"ask"⟩ = some logged ∧
            logged.status = .filled) := by
  have hmem : (ask, askOrder) ∈ Engine.new.acceptances crypto traded := by
    decide +kernel
  obtain ⟨hretry, hkeeps⟩ := retry_repeats_original_iff
    (traded_run.mono fun _ _ _ h => h.1) hmem
  exact ⟨hretry, hkeeps (by decide)⟩

/-- After a recovery the retry of a cancelled order is told it was filled. -/
theorem cancelled_retry :
    Run (Step crypto) .new (recovering cancelled)
        (after (recovering cancelled)) ∧
      (ask, askOrder) ∈ Engine.new.acceptances crypto (recovering cancelled) ∧
      ((after (recovering cancelled)).processOrder crypto ask askEnv).2 =
        .ok ⟨⟨"ask"⟩, ⟨askHash⟩, 1, [], .filled, true⟩ ∧
      ¬ (after (recovering cancelled)).RepeatsOriginal askOrder
        ((after (recovering cancelled)).processOrder crypto ask askEnv).2 := by
  have hok : ((after (recovering cancelled)).processOrder crypto ask askEnv).2 =
      .ok ⟨⟨"ask"⟩, ⟨askHash⟩, 1, [], .filled, true⟩ := by
    decide +kernel
  have hview : (orderInLog (after (recovering cancelled)).log ⟨"ask"⟩).map
      Order.status = some .cancelled := by
    decide +kernel
  refine ⟨recovering_run (cancelled_run.mono fun _ _ _ h => h.1),
    by decide +kernel, hok, ?_⟩
  rw [hok]
  rintro ⟨result, logged, hresult, -, -, hlogged, hstatus⟩
  cases hresult
  rw [show askOrder.orderId = ⟨"ask"⟩ from rfl] at hlogged
  rw [hlogged, Option.map_some, ← hstatus] at hview
  cases hview

end Sample

end ClobApi
