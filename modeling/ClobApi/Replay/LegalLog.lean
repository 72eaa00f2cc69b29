import ClobApi.Replay.History

/-!
# Legal logs

In a legal log every event is justified by the events before it: accepted ids
are new, a fill names two accepted orders that can trade, a cancellation names
an accepted order.  In a strictly legal log a fill or a cancellation also finds
its orders still open.
-/

namespace ClobApi

open Foundation

structure LegalFill (strict : Prop) (fill : Fill)
    (taker maker : Order) : Prop where
  distinct : fill.takerOrderId ≠ fill.makerOrderId
  takerHash : fill.takerOrderHash = taker.orderHash
  makerHash : fill.makerOrderHash = maker.orderHash
  makerMarket : maker.marketId = fill.marketId
  takerMarket : taker.marketId = fill.marketId
  side : maker.side = taker.side.opposite
  trader : maker.traderId ≠ taker.traderId
  price : fill.priceTicks = maker.priceTicks
  crosses : taker.Crosses fill.priceTicks
  positive : fill.sizeLots ≠ 0
  takerRoom : fill.sizeLots ≤ taker.remainingSizeLots
  makerRoom : fill.sizeLots ≤ maker.remainingSizeLots
  live : strict → taker.isClosed = false ∧ maker.isClosed = false

/-- The event is justified after the log. -/
inductive LegalEvent (strict : Prop) (log : List SequencedEvent) : Event → Prop
  | orderAccepted {order : Order} (fresh : orderInLog log order.orderId = none)
      (status : order.status = .open) (unfilled : order.filledSizeLots = 0)
      (positive : order.origSizeLots ≠ 0)
      (created : order.createdSequence = log.length + 1) :
      LegalEvent strict log (.orderAccepted order)
  | fill {fill : Fill} {taker maker : Order}
      (taker_mem : orderInLog log fill.takerOrderId = some taker)
      (maker_mem : orderInLog log fill.makerOrderId = some maker)
      (legal : LegalFill strict fill taker maker) :
      LegalEvent strict log (.fill fill)
  | orderCancelled {id : OrderId} {order : Order} {reason : CancelReason}
      (order_mem : orderInLog log id = some order)
      (live : strict → order.isClosed = false) :
      LegalEvent strict log (.orderCancelled id order.orderHash reason)
  | marketPaused (marketId : MarketId) (triggeredBy : String) :
      LegalEvent strict log (.marketPaused marketId triggeredBy)
  | marketResumed (marketId : MarketId) (triggeredBy : String) :
      LegalEvent strict log (.marketResumed marketId triggeredBy)

inductive LegalLog (strict : Prop) : List SequencedEvent → Prop
  | nil : LegalLog strict []
  | append {log : List SequencedEvent} {event : Event} (timestampMs : UInt64)
      (init : LegalLog strict log) (last : LegalEvent strict log event) :
      LegalLog strict (log ++ [⟨log.length + 1, timestampMs, event⟩])

/-! ## Accepted orders -/

theorem viewStep_terms {id : OrderId} {se : SequencedEvent}
    {before : Option Order} {order : Order}
    (h : viewStep id before se = some order) :
    (∃ new, se.event.accepts = some new ∧ new.orderId = id ∧ order = new) ∨
      ∃ old, before = some old ∧ order.terms = old.terms := by
  unfold viewStep at h
  cases hev : se.event with
  | orderAccepted new =>
      simp only [hev] at h
      split at h
      · next hid =>
          cases h
          exact .inl ⟨_, rfl, hid.symm, rfl⟩
      · exact .inr ⟨order, h, rfl⟩
  | fill fill =>
      right
      simp only [hev] at h
      cases before with
      | none => split at h <;> simp at h
      | some old =>
          refine ⟨old, rfl, ?_⟩
          split at h <;> split at h <;> cases h <;> rfl
  | orderCancelled cancelled hash reason =>
      right
      simp only [hev] at h
      cases before with
      | none => split at h <;> simp at h
      | some old =>
          refine ⟨old, rfl, ?_⟩
          split at h <;> cases h <;> rfl
  | orderRejected => exact .inr ⟨order, by simpa [hev] using h, rfl⟩
  | marketPaused => exact .inr ⟨order, by simpa [hev] using h, rfl⟩
  | marketResumed => exact .inr ⟨order, by simpa [hev] using h, rfl⟩

theorem orderInLog_accepted {log : List SequencedEvent} {id : OrderId}
    {order : Order} (h : orderInLog log id = some order) :
    ∃ new ∈ accepted log, new.orderId = id ∧ order.terms = new.terms := by
  induction log using List.reverseRecOn generalizing order with
  | nil => cases h
  | append_singleton log se ih =>
      rw [orderInLog_append] at h
      rw [accepted_append]
      obtain ⟨new, hnew, hid, rfl⟩ | ⟨old, hold, hterms⟩ := viewStep_terms h
      · exact ⟨order, by simp [hnew], hid, rfl⟩
      · obtain ⟨new, hmem, hid, hnew⟩ := ih hold
        exact ⟨new, by simp [hmem], hid, hterms.trans hnew⟩

theorem viewStep_isSome {id : OrderId} {se : SequencedEvent}
    {before : Option Order} (h : before.isSome = true) :
    (viewStep id before se).isSome = true := by
  obtain ⟨order, rfl⟩ := Option.isSome_iff_exists.mp h
  unfold viewStep
  cases se.event <;> simp only [] <;> repeat' split
  all_goals simp

theorem orderInLog_isSome {log : List SequencedEvent} {order : Order}
    (h : order ∈ accepted log) :
    (orderInLog log order.orderId).isSome = true := by
  induction log using List.reverseRecOn with
  | nil => cases h
  | append_singleton log se ih =>
      rw [orderInLog_append]
      rw [accepted_append, List.mem_append, Option.mem_toList] at h
      rcases h with h | h
      · exact viewStep_isSome (ih h)
      · cases hev : se.event with
        | orderAccepted new =>
            simp only [hev, Event.accepts, Option.some.injEq] at h
            subst h
            simp [viewStep, hev]
        | _ => simp [hev, Event.accepts] at h

theorem orderInLog_eq_none {log : List SequencedEvent} {id : OrderId}
    (h : ∀ order ∈ accepted log, order.orderId ≠ id) :
    orderInLog log id = none := by
  rw [Option.eq_none_iff_forall_ne_some]
  intro order hview
  obtain ⟨new, hmem, hid, -⟩ := orderInLog_accepted hview
  exact h new hmem hid

/-! ## Orders in a legal log -/

theorem fillOrder_eq_applyFillTo {order : Order} {qty : UInt64} (seqId : Nat)
    (hle : order.filledSizeLots ≤ order.origSizeLots)
    (hqty : qty ≤ order.remainingSizeLots) :
    Replay.fillOrder seqId qty order = applyFillTo order qty seqId := by
  have hle' := applyFillTo_filled_le seqId hle hqty
  have hfull : (applyFillTo order qty seqId).remainingSizeLots = 0 ↔
      order.filledSizeLots + qty ≥ order.origSizeLots := by
    rw [Order.remainingSizeLots_eq_zero_iff hle']
    simp only [applyFillTo_filledSizeLots, applyFillTo_origSizeLots] at hle' ⊢
    exact ⟨fun h => UInt64.le_of_eq h.symm, fun h => UInt64.le_antisymm hle' h⟩
  have hstatus := applyFillTo_status order qty seqId
  simp only [hfull] at hstatus
  unfold Replay.fillOrder
  simp only [← hstatus]
  rfl

theorem viewStep_fill {fill : Fill}
    (hdistinct : fill.takerOrderId ≠ fill.makerOrderId) (id : OrderId)
    (order : Option Order) (seqId : Nat) (timestampMs : UInt64) :
    viewStep id order ⟨seqId, timestampMs, .fill fill⟩ =
      if id = fill.takerOrderId ∨ id = fill.makerOrderId then
        order.map (Replay.fillOrder seqId fill.sizeLots)
      else order := by
  unfold viewStep
  grind

theorem viewStep_cancel (id cancelled : OrderId) (order : Option Order)
    (hash : OrderHash) (reason : CancelReason) (seqId : Nat)
    (timestampMs : UInt64) :
    viewStep id order
      ⟨seqId, timestampMs, .orderCancelled cancelled hash reason⟩ =
      if id = cancelled then order.map (Replay.cancelOrder seqId reason)
      else order := rfl

structure LoggedOrder (log : List SequencedEvent) (id : OrderId)
    (order : Order) : Prop where
  key : order.orderId = id
  consistent : order.Consistent
  created_pos : 0 < order.createdSequence
  created_le : order.createdSequence ≤ log.length

theorem closed_consistent {order : Order}
    (hle : order.filledSizeLots ≤ order.origSizeLots)
    (hclosed : order.isClosed = true) : order.Consistent :=
  ⟨hle, fun h => by simp [hclosed] at h, fun h => by simp [hclosed] at h⟩

theorem LoggedOrder.fillOrder {log : List SequencedEvent} {id : OrderId}
    {order : Order} (h : LoggedOrder log id order) {qty : UInt64}
    (hqty : qty ≤ order.remainingSizeLots) (hpos : qty ≠ 0) (seqId : Nat) :
    LoggedOrder log id (Replay.fillOrder seqId qty order) := by
  rw [fillOrder_eq_applyFillTo seqId h.consistent.filled_le hqty]
  exact ⟨h.key, applyFillTo_consistent h.consistent.filled_le hqty hpos,
    h.created_pos, h.created_le⟩

theorem LoggedOrder.cancelOrder {log : List SequencedEvent} {id : OrderId}
    {order : Order} (h : LoggedOrder log id order) (seqId : Nat)
    (reason : CancelReason) :
    LoggedOrder log id (Replay.cancelOrder seqId reason order) :=
  ⟨h.key, closed_consistent h.consistent.filled_le (by cases reason <;> rfl),
    h.created_pos, h.created_le⟩

theorem LoggedOrder.append {log : List SequencedEvent} {id : OrderId}
    {order : Order} (h : LoggedOrder log id order) (se : SequencedEvent) :
    LoggedOrder (log ++ [se]) id order :=
  { h with created_le := by simpa using Nat.le_succ_of_le h.created_le }

section Legal

variable {strict : Prop} {log : List SequencedEvent}

theorem LegalLog.loggedOrder (h : LegalLog strict log) {id : OrderId}
    {order : Order} (hview : orderInLog log id = some order) :
    LoggedOrder log id order := by
  induction h generalizing order with
  | nil => cases hview
  | append timestampMs init last ih =>
      rw [orderInLog_append] at hview
      cases last with
      | @orderAccepted new fresh status unfilled positive created =>
          simp only [viewStep] at hview
          split at hview
          · next hid =>
              cases hview
              refine ⟨hid.symm, ⟨by simp [unfilled], fun _ => ?_, fun _ => ?_⟩,
                by omega, by simp [created]⟩
              · rw [unfilled]
                exact UInt64.pos_iff_ne_zero.mpr positive
              · simp [status, unfilled]
          · exact (ih hview).append _
      | @fill fill taker maker htaker hmaker legal =>
          rw [viewStep_fill legal.distinct] at hview
          split at hview
          · next hid =>
              rcases hid with rfl | rfl
              · rw [htaker] at hview
                cases hview
                exact ((ih htaker).fillOrder legal.takerRoom
                  legal.positive _).append _
              · rw [hmaker] at hview
                cases hview
                exact ((ih hmaker).fillOrder legal.makerRoom
                  legal.positive _).append _
          · exact (ih hview).append _
      | @orderCancelled cancelled old reason hold live =>
          simp only [viewStep] at hview
          split at hview
          · next hid =>
              subst hid
              rw [hold] at hview
              cases hview
              exact ((ih hold).cancelOrder _ _).append _
          · exact (ih hview).append _
      | marketPaused => exact (ih hview).append _
      | marketResumed => exact (ih hview).append _

theorem LegalLog.accepted_created (h : LegalLog strict log) :
    ∀ order ∈ accepted log, order.createdSequence ≤ log.length := by
  induction h with
  | nil => simp [accepted]
  | append timestampMs init last ih =>
      intro order hmem
      rw [accepted_append, List.mem_append, Option.mem_toList] at hmem
      rw [List.length_append, List.length_singleton]
      rcases hmem with hmem | hmem
      · exact Nat.le_succ_of_le (ih order hmem)
      · cases last with
        | orderAccepted fresh status unfilled positive created =>
            cases hmem
            exact Nat.le_of_eq created
        | _ => cases hmem

theorem LegalLog.accepted_pairwise (h : LegalLog strict log) :
    (accepted log).Pairwise fun a b =>
      a.createdSequence < b.createdSequence ∧ a.orderId ≠ b.orderId := by
  induction h with
  | nil => exact .nil
  | append timestampMs init last ih =>
      rw [accepted_append]
      cases last with
      | orderAccepted fresh status unfilled positive created =>
          rw [List.pairwise_append]
          refine ⟨ih, List.pairwise_singleton _ _, fun a ha b hb => ?_⟩
          obtain rfl := List.mem_singleton.mp hb
          refine ⟨?_, fun hid => ?_⟩
          · rw [created]
            exact Nat.lt_succ_of_le (init.accepted_created a ha)
          · have hsome := orderInLog_isSome ha
            rw [hid, fresh] at hsome
            cases hsome
      | fill => simpa [Event.accepts] using ih
      | orderCancelled => simpa [Event.accepts] using ih
      | marketPaused => simpa [Event.accepts] using ih
      | marketResumed => simpa [Event.accepts] using ih

theorem LegalLog.eq_of_orderId (h : LegalLog strict log) {a b : Order}
    (ha : a ∈ accepted log) (hb : b ∈ accepted log)
    (hid : a.orderId = b.orderId) : a = b := by
  have hnodup : ((accepted log).map Order.orderId).Nodup :=
    List.pairwise_map.mpr (h.accepted_pairwise.imp And.right)
  exact List.inj_on_of_nodup_map hnodup ha hb hid

theorem LegalLog.eq_of_createdSequence (h : LegalLog strict log) {a b : Order}
    (ha : a ∈ accepted log) (hb : b ∈ accepted log)
    (hcreated : a.createdSequence = b.createdSequence) : a = b := by
  have hnodup : ((accepted log).map Order.createdSequence).Nodup :=
    List.pairwise_map.mpr (h.accepted_pairwise.imp fun h => Nat.ne_of_lt h.1)
  exact List.inj_on_of_nodup_map hnodup ha hb hcreated

theorem LegalLog.created_injective (h : LegalLog strict log) {id id' : OrderId}
    {order order' : Order} (hview : orderInLog log id = some order)
    (hview' : orderInLog log id' = some order')
    (hcreated : order.createdSequence = order'.createdSequence) : id = id' := by
  obtain ⟨new, hmem, rfl, hterms⟩ := orderInLog_accepted hview
  obtain ⟨new', hmem', rfl, hterms'⟩ := orderInLog_accepted hview'
  have hnew : order.createdSequence = new.createdSequence := by
    simpa using congrArg Order.createdSequence hterms
  have hnew' : order'.createdSequence = new'.createdSequence := by
    simpa using congrArg Order.createdSequence hterms'
  rw [h.eq_of_createdSequence hmem hmem' (by omega)]

theorem LegalLog.accepted_view (h : LegalLog strict log) {new : Order}
    (hmem : new ∈ accepted log) :
    ∃ order, orderInLog log new.orderId = some order ∧
      order.terms = new.terms := by
  obtain ⟨order, hview⟩ := Option.isSome_iff_exists.mp (orderInLog_isSome hmem)
  obtain ⟨new', hmem', hid, hterms⟩ := orderInLog_accepted hview
  rw [h.eq_of_orderId hmem' hmem hid] at hterms
  exact ⟨order, hview, hterms⟩

theorem LegalLog.split {before after : List SequencedEvent}
    {se : SequencedEvent} (h : LegalLog strict log)
    (hlog : log = before ++ se :: after) :
    LegalLog strict before ∧ LegalEvent strict before se.event := by
  induction h generalizing after with
  | nil => simp at hlog
  | append timestampMs init last ih =>
      rcases List.eq_nil_or_concat after with rfl | ⟨after, se', rfl⟩
      · obtain ⟨rfl, hse⟩ := List.append_inj' hlog rfl
        obtain rfl := List.singleton_inj.mp hse
        exact ⟨init, last⟩
      · rw [List.concat_eq_append, ← List.cons_append,
          ← List.append_assoc] at hlog
        exact ih (List.append_inj' hlog rfl).1

theorem LegalLog.take (h : LegalLog strict log) (k : Nat) :
    LegalLog strict (log.take k) := by
  cases hdrop : log.drop k with
  | nil => rwa [List.take_of_length_le (List.drop_eq_nil_iff.mp hdrop)]
  | cons se rest => exact (h.split (by rw [← hdrop, List.take_append_drop])).1

/-! ## Replay of a legal log -/

theorem LegalLog.seqIds (h : LegalLog strict log) :
    log.map SequencedEvent.seqId = List.range' 1 log.length := by
  induction h with
  | nil => rfl
  | append timestampMs init last ih =>
      rw [List.map_append, ih, List.length_append, List.length_singleton,
        List.range'_concat]
      simp [Nat.add_comm]

theorem LegalLog.nextSeqId (h : LegalLog strict log) :
    (log.getLast?.map fun se => se.seqId + 1).getD 1 = log.length + 1 := by
  cases h <;> simp

theorem LegalEvent.names_known {event : Event} (h : LegalEvent strict log event)
    {id : OrderId} (hid : id ∈ event.names) :
    ∃ order, orderInLog log id = some order := by
  cases h with
  | fill taker_mem maker_mem legal =>
      rcases List.mem_pair.mp hid with rfl | rfl
      · exact ⟨_, taker_mem⟩
      · exact ⟨_, maker_mem⟩
  | orderCancelled order_mem live =>
      obtain rfl := List.mem_singleton.mp hid
      exact ⟨_, order_mem⟩
  | _ => cases hid

theorem applyEvent_legal {orders : HashMap OrderId Order} (state : StateStore)
    {event : Event} (horders : ∀ id, orders.get? id = orderInLog log id)
    (h : LegalEvent strict log event) (seqId : Nat) :
    ∃ result, Replay.applyEvent orders state seqId event = .ok result := by
  obtain ⟨id, hnamed, hmissing, -⟩ | ⟨-, orders', state', hok⟩ :=
    applyEvent_cases orders state seqId event
  · obtain ⟨order, hview⟩ := h.names_known hnamed
    rw [horders, hview] at hmissing
    cases hmissing
  · exact ⟨_, hok⟩

theorem LegalLog.walk_ok (h : LegalLog strict log) :
    ∃ progress, Replay.walk log = .ok progress ∧
      progress.lastSeqId = log.length := by
  induction h with
  | nil => exact ⟨_, rfl, rfl⟩
  | append timestampMs init last ih =>
      obtain ⟨progress, hwalk, hseq⟩ := ih
      have hviews := walk_views hwalk
      obtain ⟨⟨orders, state⟩, happly⟩ :=
        applyEvent_legal progress.state hviews.orders last
          (progress.lastSeqId + 1)
      rw [walk_append, hwalk]
      refine ⟨⟨orders, state, progress.lastSeqId + 1⟩, ?_, by simp [hseq]⟩
      simp [Except.bind, Replay.step, ← hseq, happly, bind, pure, Except.pure]

theorem LegalLog.replay_ok (h : LegalLog strict log) (shuffle : Shuffle Order) :
    ∃ orders : HashMap OrderId Order,
      (∀ id, orders.get? id = orderInLog log id) ∧
      replay shuffle log =
        .ok ⟨Replay.buildBooks shuffle orders, stateInLog log, log.length,
          log.length⟩ := by
  obtain ⟨progress, hwalk, hlast⟩ := h.walk_ok
  have hviews := walk_views hwalk
  refine ⟨progress.orders, hviews.orders, ?_⟩
  simp only [replay, hwalk, bind, Except.bind, pure, Except.pure, hlast,
    hviews.state]

end Legal

end ClobApi
