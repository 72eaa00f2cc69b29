import ClobApi.Engine.MatchRun
import ClobApi.Replay.Replay
import Mathlib.Data.List.Induction

/-!
# The log as a history of orders

`orderInLog` and `stateInLog` say what a log tells about one order and about
the state store.  A log is legal when each event is justified by the events
before it; replay accepts every legal log and computes these two views.
-/

namespace ClobApi

open Foundation

/-! ## What a log tells -/

def Event.accepts : Event → Option Order
  | .orderAccepted order => some order
  | _ => none

def accepted (log : List SequencedEvent) : List Order :=
  log.filterMap fun se => se.event.accepts

def Event.names : Event → List OrderId
  | .fill trade => [trade.takerOrderId, trade.makerOrderId]
  | .orderCancelled orderId _ _ => [orderId]
  | _ => []

def viewStep (id : OrderId) (order : Option Order) (se : SequencedEvent) :
    Option Order :=
  match se.event with
  | .orderAccepted new => if id = new.orderId then some new else order
  | .fill fill =>
      let order :=
        if id = fill.takerOrderId then
          order.map (Replay.fillOrder se.seqId fill.sizeLots)
        else order
      if id = fill.makerOrderId then
        order.map (Replay.fillOrder se.seqId fill.sizeLots)
      else order
  | .orderCancelled cancelled _ reason =>
      if id = cancelled then order.map (Replay.cancelOrder se.seqId reason)
      else order
  | .orderRejected .. | .marketPaused .. | .marketResumed .. => order

/-- The order `id` as the log leaves it. -/
def orderInLog (log : List SequencedEvent) (id : OrderId) : Option Order :=
  log.foldl (viewStep id) none

def stateStep (state : StateStore) (se : SequencedEvent) : StateStore :=
  match se.event with
  | .orderAccepted order => Replay.raiseNonce state order.traderId order.nonce
  | .fill fill =>
      state.applyFill fill.takerOrderHash.bytes fill.makerOrderHash.bytes
        fill.sizeLots
  | .orderCancelled _ orderHash _ => state.cancelOrder orderHash.bytes
  | .orderRejected .. | .marketPaused .. | .marketResumed .. => state

def stateInLog (log : List SequencedEvent) : StateStore :=
  log.foldl stateStep .new

section Append

variable (log : List SequencedEvent) (se : SequencedEvent) (id : OrderId)

theorem orderInLog_append :
    orderInLog (log ++ [se]) id = viewStep id (orderInLog log id) se := by
  simp [orderInLog]

theorem stateInLog_append :
    stateInLog (log ++ [se]) = stateStep (stateInLog log) se := by
  simp [stateInLog]

theorem accepted_append :
    accepted (log ++ [se]) = accepted log ++ se.event.accepts.toList := by
  cases h : se.event.accepts <;> simp [accepted, h]

theorem walk_append :
    Replay.walk (log ++ [se]) = (Replay.walk log).bind fun progress =>
      Replay.step progress se := by
  simp only [Replay.walk, List.foldlM_append, List.foldlM_cons,
    List.foldlM_nil, bind_pure]
  rfl

end Append

/-! ## Replay computes the views -/

theorem updateOrder_ok {orders orders' : HashMap OrderId Order} {id : OrderId}
    {f : Order → Order} (h : Replay.updateOrder orders id f = .ok orders')
    (id' : OrderId) :
    orders'.get? id' =
      if id' = id then (orders.get? id').map f else orders.get? id' := by
  unfold Replay.updateOrder at h
  cases hget : orders.get? id with
  | none => simp [hget] at h
  | some order =>
      simp only [hget, Except.ok.injEq] at h
      rw [← h, HashMap.get?_modify]

theorem updateOrder_some {orders : HashMap OrderId Order} {id : OrderId}
    {order : Order} (h : orders.get? id = some order) (f : Order → Order) :
    Replay.updateOrder orders id f = .ok (orders.modify id f) := by
  simp [Replay.updateOrder, h]

theorem updateOrder_none {orders : HashMap OrderId Order} {id : OrderId}
    (h : orders.get? id = none) (f : Order → Order) :
    Replay.updateOrder orders id f = .error (.unknownOrder id) := by
  simp [Replay.updateOrder, h]

theorem applyEvent_cases (orders : HashMap OrderId Order) (state : StateStore)
    (seqId : Nat) (event : Event) :
    (∃ id ∈ event.names, orders.get? id = none ∧
      Replay.applyEvent orders state seqId event =
        .error (.unknownOrder id)) ∨
    (∀ id ∈ event.names, (orders.get? id).isSome = true) ∧
      ∃ orders' state',
        Replay.applyEvent orders state seqId event = .ok (orders', state') := by
  cases event with
  | fill fill =>
      cases htaker : orders.get? fill.takerOrderId with
      | none =>
          refine .inl ⟨fill.takerOrderId, .head _, htaker, ?_⟩
          simp only [Replay.applyEvent, updateOrder_none htaker, bind,
            Except.bind]
      | some taker =>
          have hmodified := HashMap.get?_modify orders fill.takerOrderId
            fill.makerOrderId (Replay.fillOrder seqId fill.sizeLots)
          cases hmaker : orders.get? fill.makerOrderId with
          | none =>
              refine .inl ⟨fill.makerOrderId, .tail _ (.head _), hmaker, ?_⟩
              have hmissing : (orders.modify fill.takerOrderId
                  (Replay.fillOrder seqId fill.sizeLots)).get?
                    fill.makerOrderId = none := by
                rw [hmodified, hmaker]
                split <;> rfl
              simp only [Replay.applyEvent, updateOrder_some htaker, bind,
                Except.bind, updateOrder_none hmissing]
          | some maker =>
              refine .inr ⟨by simp [Event.names, htaker, hmaker], ?_⟩
              have hfound : ∃ maker', (orders.modify fill.takerOrderId
                  (Replay.fillOrder seqId fill.sizeLots)).get?
                    fill.makerOrderId = some maker' := by
                rw [hmodified, hmaker]
                split <;> exact ⟨_, rfl⟩
              obtain ⟨maker', hmaker'⟩ := hfound
              simp only [Replay.applyEvent, updateOrder_some htaker, bind,
                Except.bind, updateOrder_some hmaker', pure, Except.pure]
              exact ⟨_, _, rfl⟩
  | orderCancelled orderId orderHash reason =>
      cases horder : orders.get? orderId with
      | none =>
          refine .inl ⟨orderId, .head _, horder, ?_⟩
          simp only [Replay.applyEvent, updateOrder_none horder, bind,
            Except.bind]
      | some order =>
          refine .inr ⟨by simp [Event.names, horder], ?_⟩
          simp only [Replay.applyEvent, updateOrder_some horder, bind,
            Except.bind, pure, Except.pure]
          exact ⟨_, _, rfl⟩
  | _ => exact .inr ⟨by simp [Event.names], _, _, rfl⟩

theorem applyEvent_ok {orders orders' : HashMap OrderId Order}
    {state state' : StateStore} {se : SequencedEvent}
    (h : Replay.applyEvent orders state se.seqId se.event =
      .ok (orders', state')) :
    (∀ id, orders'.get? id = viewStep id (orders.get? id) se) ∧
      state' = stateStep state se := by
  unfold viewStep stateStep
  cases hev : se.event with
  | orderAccepted order =>
      simp only [hev, Replay.applyEvent, Except.ok.injEq, Prod.mk.injEq] at h
      obtain ⟨rfl, rfl⟩ := h
      exact ⟨fun id => HashMap.get?_insert _ _ _ _, rfl⟩
  | fill fill =>
      simp only [hev, Replay.applyEvent, bind, Except.bind, pure,
        Except.pure] at h
      cases htaker : Replay.updateOrder orders fill.takerOrderId
          (Replay.fillOrder se.seqId fill.sizeLots) with
      | error => simp [htaker] at h
      | ok filled =>
          simp only [htaker] at h
          cases hmaker : Replay.updateOrder filled fill.makerOrderId
              (Replay.fillOrder se.seqId fill.sizeLots) with
          | error => simp [hmaker] at h
          | ok filled' =>
              simp only [hmaker, Except.ok.injEq, Prod.mk.injEq] at h
              obtain ⟨rfl, rfl⟩ := h
              refine ⟨fun id => ?_, rfl⟩
              rw [updateOrder_ok hmaker, updateOrder_ok htaker]
  | orderCancelled cancelled hash reason =>
      simp only [hev, Replay.applyEvent, bind, Except.bind, pure,
        Except.pure] at h
      cases hcancel : Replay.updateOrder orders cancelled
          (Replay.cancelOrder se.seqId reason) with
      | error => simp [hcancel] at h
      | ok orders'' =>
          simp only [hcancel, Except.ok.injEq, Prod.mk.injEq] at h
          obtain ⟨rfl, rfl⟩ := h
          exact ⟨updateOrder_ok hcancel, rfl⟩
  | orderRejected clientOrderId traderId reason =>
      simp only [hev, Replay.applyEvent, Except.ok.injEq, Prod.mk.injEq] at h
      simp [← h.1, ← h.2]
  | marketPaused marketId triggeredBy =>
      simp only [hev, Replay.applyEvent, Except.ok.injEq, Prod.mk.injEq] at h
      simp [← h.1, ← h.2]
  | marketResumed marketId triggeredBy =>
      simp only [hev, Replay.applyEvent, Except.ok.injEq, Prod.mk.injEq] at h
      simp [← h.1, ← h.2]

/-- Replay's working map and state store hold the views of what it has read. -/
structure Replay.Progress.Views (progress : Replay.Progress)
    (log : List SequencedEvent) : Prop where
  orders : ∀ id, progress.orders.get? id = orderInLog log id
  state : progress.state = stateInLog log

theorem step_views {progress progress' : Replay.Progress}
    {log : List SequencedEvent} {se : SequencedEvent}
    (hviews : progress.Views log)
    (h : Replay.step progress se = .ok progress') :
    progress'.Views (log ++ [se]) ∧ progress'.lastSeqId = se.seqId := by
  unfold Replay.step at h
  split at h
  · cases h
  simp only [bind, Except.bind, pure, Except.pure] at h
  cases happly :
    Replay.applyEvent progress.orders progress.state se.seqId se.event with
  | error => simp [happly] at h
  | ok result =>
      obtain ⟨orders, state⟩ := result
      simp only [happly, Except.ok.injEq] at h
      subst h
      obtain ⟨horders, hstate⟩ := applyEvent_ok happly
      refine ⟨⟨fun id => ?_, ?_⟩, rfl⟩
      · rw [orderInLog_append, ← hviews.orders id]
        exact horders id
      · rw [stateInLog_append, ← hviews.state]
        exact hstate

theorem walk_views {log : List SequencedEvent} {progress : Replay.Progress}
    (h : Replay.walk log = .ok progress) : progress.Views log := by
  induction log using List.reverseRecOn generalizing progress with
  | nil =>
      simp only [Replay.walk, List.foldlM_nil, pure, Except.pure,
        Except.ok.injEq] at h
      subst h
      exact ⟨fun _ => rfl, rfl⟩
  | append_singleton log se ih =>
      rw [walk_append] at h
      cases hwalk : Replay.walk log with
      | error => simp [hwalk, Except.bind] at h
      | ok before =>
          simp only [hwalk, Except.bind] at h
          exact (step_views (ih hwalk) h).1

end ClobApi
