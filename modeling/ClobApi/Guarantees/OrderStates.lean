import ClobApi.Engine.Advance
import ClobApi.Guarantees.Accounting
import ClobApi.Guarantees.Provenance

/-!
# What `get_order` shows

An order that `get_order` finds is an accepted one, filled as the log says.  The
server goes on finding it, and what it shows of it only moves forward.
-/

namespace ClobApi

open Foundation

def OrderStateResponse.CancelledIn (log : List SequencedEvent)
    (response : OrderStateResponse) : Prop :=
  ∃ se ∈ log, ∃ hash reason,
    se.event = .orderCancelled ⟨response.orderId⟩ hash reason ∧
      response.orderHash = hexEncode hash.bytes.toList

structure OrderStateResponse.Reports (log : List SequencedEvent)
    (response : OrderStateResponse) : Prop where
  known : ∃ order ∈ accepted log, ∃ live : Order,
    live.terms = order.terms ∧ response = .ofOrder live
  filled : response.filledSizeLots.toNat =
    filledInLog log ⟨response.orderId⟩
  sizes : response.filledSizeLots.toNat + response.remainingSizeLots.toNat =
    response.origSizeLots.toNat
  live : response.status.isClosed = false →
    response.filledSizeLots < response.origSizeLots ∧
      (response.status = .open ↔ response.filledSizeLots = 0)
  closed : response.status.isClosed = true →
    response.filledSizeLots = response.origSizeLots ∨ response.CancelledIn log

/-- What `get_order` may show of the order later, with the log then. -/
structure OrderStateResponse.Precedes (log : List SequencedEvent)
    (before after : OrderStateResponse) : Prop where
  terms : after = { before with
    filledSizeLots := after.filledSizeLots
    remainingSizeLots := after.remainingSizeLots
    status := after.status
    lastUpdateSequence := after.lastUpdateSequence }
  filled : before.filledSizeLots ≤ after.filledSizeLots
  final : before.status.isClosed = true → after = before
  cause : before.status.isClosed = false → after.status.isClosed = true →
    after.filledSizeLots = after.origSizeLots ∨ after.CancelledIn log

section Orders

variable {log : List SequencedEvent} {live live' : Order}

theorem Concluded.shown (h : Concluded log live) :
    live.filledSizeLots = live.origSizeLots ∨
      (OrderStateResponse.ofOrder live).CancelledIn log :=
  h.imp_right fun ⟨se, hse, reason, hcancelled⟩ =>
    ⟨se, hse, live.orderHash, reason, hcancelled, rfl⟩

theorem Order.Advances.precedes (h : live.Advances log live') :
    (OrderStateResponse.ofOrder live).Precedes log (.ofOrder live') where
  terms := by
    have hterms := h.terms
    simp only [Order.terms, Order.facts, Order.core, Order.mk.injEq] at hterms
    simp only [OrderStateResponse.ofOrder, hterms]
  filled := h.filled
  final := by
    intro hclosed
    rw [h.final hclosed]
  cause := fun hopen hclosed => (h.cause hopen hclosed).shown

end Orders

/-! ## Lookups -/

section Lookups

variable {crypto : Crypto} {e : Engine} {orderId : String} {live : Order}
  {response : OrderStateResponse}

theorem orderState_eq_ok : e.orderState orderId = .ok response ↔
    ∃ live, e.findOrder ⟨orderId⟩ = some live ∧ response = .ofOrder live := by
  unfold Engine.orderState Engine.getOrder
  cases e.findOrder ⟨orderId⟩ <;> simp [eq_comm]

theorem findOrder_eq_some {id : OrderId} : e.findOrder id = some live ↔
    ∃ marketId, e.orderMarketIndex.get? id = some marketId ∧
      storedOrder e.books marketId id = some live := by
  simp [Engine.findOrder, storedOrder, Option.bind_eq_some_iff]

theorem reports_of_found (h : e.Inv False False noOrder)
    (hcause : e.ClosesForCause)
    (hfound : e.findOrder ⟨orderId⟩ = some live) :
    (OrderStateResponse.ofOrder live).Reports e.log := by
  obtain ⟨marketId, -, hstored⟩ := findOrder_eq_some.mp hfound
  obtain ⟨book, hbook, hget⟩ := storedOrder_eq_some.mp hstored
  obtain ⟨logged, hlogged, hmatches⟩ := h.sync.stored hstored
  obtain ⟨order, horder, hid, hterms⟩ := orderInLog_accepted hlogged
  have hvalid := h.sync.valid hbook
  have hconsistent := hvalid.consistent hget
  have hkey : live.orderId = ⟨orderId⟩ := hvalid.key hget
  have hsame : live.terms = order.terms :=
    (Order.terms_eq_of_facts hmatches.facts).symm.trans hterms
  refine ⟨⟨order, horder, live, hsame, rfl⟩, ?_, ?_, fun hopen => ?_,
    fun hclosed => (hcause hstored hclosed).shown⟩
  · change live.filledSizeLots.toNat = filledInLog e.log live.orderId
    rw [hkey, ← h.legal.filledSizeLots_toNat hlogged,
      Order.filledSizeLots_eq_of_facts hmatches.facts]
  · have hle := UInt64.le_iff_toNat_le.mp hconsistent.filled_le
    change live.filledSizeLots.toNat + live.remainingSizeLots.toNat =
      live.origSizeLots.toNat
    rw [Order.remainingSizeLots_toNat hconsistent.filled_le]
    omega
  · exact ⟨hconsistent.filled_lt hopen, hconsistent.open_iff hopen⟩

theorem index_apply (h : e.Inv False False noOrder) {op : Op}
    (hadmits : e.Admits op) {id : OrderId} {marketId : String}
    (hindex : e.orderMarketIndex.get? id = some marketId) :
    (e.apply crypto op).1.orderMarketIndex.get? id = some marketId := by
  have h' : (e.apply crypto op).1.Inv False False noOrder :=
    apply_inv h hadmits nofun nofun
  rw [h.index] at hindex
  obtain ⟨logged, hlogged, rfl⟩ := Option.map_eq_some_iff.mp hindex
  obtain ⟨order, horder, rfl, hterms⟩ := orderInLog_accepted hlogged
  obtain ⟨logged', hlogged', hterms'⟩ := h'.legal.accepted_view
    ((accepted_mono (apply_log crypto hadmits)).subset horder)
  have hmarket : logged'.marketId = logged.marketId := by
    simpa using congrArg Order.marketId (hterms'.trans hterms.symm)
  rw [h'.index, hlogged', Option.map_some, hmarket]

theorem found_apply (h : e.Inv False False noOrder) {op : Op}
    (hadmits : e.Admits op)
    (hother : ∀ shuffle events, op ≠ .restoreFromEvents shuffle events)
    {id : OrderId} (hfound : e.findOrder id = some live) :
    ∃ live', (e.apply crypto op).1.findOrder id = some live' ∧
      live.Advances (e.apply crypto op).1.log live' := by
  obtain ⟨marketId, hindex, hstored⟩ := findOrder_eq_some.mp hfound
  obtain ⟨live', hstored', hadvances⟩ :=
    advances_apply h hadmits hother hstored
  exact ⟨live', findOrder_eq_some.mpr
    ⟨marketId, index_apply h hadmits hindex, hstored'⟩, hadvances⟩

theorem Request.op_ne_restore {request : Request} {op : Op}
    (hop : request.op e = some op) (shuffle : Shuffle Order)
    (events : List SequencedEvent) :
    op ≠ .restoreFromEvents shuffle events := by
  rintro rfl
  cases request with
  | cancelByClientId traderId clientOrderId wall =>
      obtain ⟨record, -, hrecord⟩ := Option.map_eq_some_iff.mp hop
      cases hrecord
  | _ => cases hop

end Lookups

namespace Service

variable {crypto : Crypto} {s s' : Service} {id : OrderId} {live : Order}

theorem Effect.found {i : Nat} {e' : Engine} {serving : Serving}
    {risk : RiskChecker} (h : Effect crypto s i e' serving risk)
    (hinv : s.server.engine.Inv False False noOrder)
    (hadmits : s.server.Admits i)
    (hfound : s.server.engine.findOrder id = some live) :
    ∃ live', e'.findOrder id = some live' ∧ live.Advances e'.log live' := by
  cases h with
  | @work http work entered locked =>
      cases work with
      | call request =>
          unfold Server.Admits at hadmits
          rw [locked] at hadmits
          have hcall : (request.perform crypto s.server.engine).1 =
              (request.call crypto s.server.engine).1 := by
            rw [Request.call_eq_perform]
          rw [Work.perform, hcall, Request.call]
          cases hop : request.op s.server.engine with
          | none => exact ⟨live, hfound, .refl _ live⟩
          | some op =>
              exact found_apply hinv (hadmits op hop)
                (Request.op_ne_restore hop) hfound
      | _ => exact ⟨live, hfound, .refl _ live⟩
  | _ => exact ⟨live, hfound, .refl _ live⟩

theorem Step.run_found {e : Engine} {risk : RiskChecker} {adminKey : String}
    {ops : List Op} {labels labels' : List (Nat × ServiceAction)}
    (hstart : Run (ClobApi.Step crypto) .new ops e)
    (h : Run (Step crypto) (start e risk adminKey) labels s)
    (h' : Run (Step crypto) s labels' s')
    (hfound : s.server.engine.findOrder id = some live) :
    ∃ live', s'.server.engine.findOrder id = some live' ∧
      live.Advances s'.server.engine.log live' := by
  induction h' with
  | start => exact ⟨live, hfound, .refl _ live⟩
  | next hrun hstep ih =>
      obtain ⟨mid, hmid, hadvances⟩ := ih
      have hall := h.append hrun
      obtain ⟨ops, hengine⟩ := Step.run_engine hstart hall
      obtain ⟨hadmits, hnext⟩ := hstep
      have heffect := (step_move hnext).effect (Step.run_fits hall)
      obtain ⟨live', hlive', hlast⟩ :=
        heffect.found (ClobApi.Step.run_inv hengine) hadmits hmid
      exact ⟨live', hlive', hadvances.trans hlast
        (heffect.log_extends hadmits)⟩

end Service

/--
In every run of the REST server an order that `get_order` shows is an accepted
one with its terms, filled by exactly the fills of the log, and closed only if
it is full or the log cancels it.  From then on `get_order` always shows it, it
never shows less filled, and what it shows of a closed order never changes.
-/
theorem order_states_advance {crypto : Crypto} {ops : List Op} {e : Engine}
    {risk : RiskChecker} {adminKey : String} {s s' : Service}
    {labels labels' : List (Nat × ServiceAction)}
    (hstart : Run (Step crypto) .new ops e)
    (h : Run (Service.Step crypto) (.start e risk adminKey) labels s)
    (h' : Run (Service.Step crypto) s labels' s') {orderId : String}
    {before : OrderStateResponse}
    (hshown : s.server.engine.orderState orderId = .ok before) :
    before.Reports s.server.engine.log ∧
      ∃ after, s'.server.engine.orderState orderId = .ok after ∧
        before.Precedes s'.server.engine.log after := by
  obtain ⟨live, hfound, rfl⟩ := orderState_eq_ok.mp hshown
  obtain ⟨ops, hengine⟩ := Service.Step.run_engine hstart h
  obtain ⟨live', hfound', hadvances⟩ :=
    Service.Step.run_found hstart h h' hfound
  exact ⟨reports_of_found (Step.run_inv hengine)
      (Step.run_closesForCause hengine) hfound,
    _, orderState_eq_ok.mpr ⟨live', hfound', rfl⟩, hadvances.precedes⟩

theorem order_states_advance_interleaved :
    ∃ s s', ∃ before after : OrderStateResponse,
      Run (Service.Step Sample.crypto) Sample.openService
        (Sample.received ++ Sample.serves 0 2) s ∧
      Run (Service.Step Sample.crypto) s
        (Sample.serves 1 3 ++ Sample.serves 4 2) s' ∧
      before.status = .open ∧ before.filledSizeLots = 0 ∧
      s'.server.engine.orderState "ask" = .ok after ∧
      before.Precedes s'.server.engine.log after := by
  have hstate : (Sample.openService.runAll Sample.crypto
      (Sample.received ++ Sample.serves 0 2)).bind (fun s =>
        (s.runAll Sample.crypto (Sample.serves 1 3 ++ Sample.serves 4 2)).map
          fun _ => s.server.engine.orderState "ask") =
        some (.ok (.ofOrder Sample.askOrder)) := by
    decide +kernel
  obtain ⟨s, hs, hnext⟩ := Option.bind_eq_some_iff.mp hstate
  obtain ⟨s', hs', hshown⟩ := Option.map_eq_some_iff.mp hnext
  have hrun := Service.runAll_run hs
  have hrun' := Service.runAll_run hs'
  obtain ⟨-, after, hafter, hprecedes⟩ :=
    order_states_advance Sample.opened_run hrun hrun' hshown
  exact ⟨s, s', _, after, hrun, hrun', rfl, rfl, hafter, hprecedes⟩

end ClobApi
