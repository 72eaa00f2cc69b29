import ClobApi.Replay.LegalLog
import Mathlib.Algebra.Ring.Nat

/-!
# What a legal log fills

The size that the log tells of an order is the sum of its fills, and so is the
entry of the state store under its hash, as long as accepted orders have
different hashes.
-/

namespace ClobApi

open Foundation

def Event.fillSize (id : OrderId) : Event → Nat
  | .fill trade =>
      if id = trade.takerOrderId ∨ id = trade.makerOrderId then
        trade.sizeLots.toNat
      else 0
  | _ => 0

def filledInLog (log : List SequencedEvent) (id : OrderId) : Nat :=
  (log.map fun se => se.event.fillSize id).sum

theorem filledInLog_append (log : List SequencedEvent) (se : SequencedEvent)
    (id : OrderId) :
    filledInLog (log ++ [se]) id =
      filledInLog log id + se.event.fillSize id := by
  simp [filledInLog]

@[simp] theorem fillOrder_orderHash (seqId : Nat) (qty : UInt64)
    (order : Order) :
    (Replay.fillOrder seqId qty order).orderHash = order.orderHash := rfl

@[simp] theorem fillOrder_filledSizeLots (seqId : Nat) (qty : UInt64)
    (order : Order) :
    (Replay.fillOrder seqId qty order).filledSizeLots =
      order.filledSizeLots + qty := rfl

theorem fillOrder_toNat {order : Order}
    (hle : order.filledSizeLots ≤ order.origSizeLots) {qty : UInt64}
    (hqty : qty ≤ order.remainingSizeLots) (seqId : Nat) :
    (Replay.fillOrder seqId qty order).filledSizeLots.toNat =
      order.filledSizeLots.toNat + qty.toNat :=
  filled_add_toNat hle hqty

section Legal

variable {strict : Prop} {log : List SequencedEvent}

theorem LegalLog.filledInLog_eq (h : LegalLog strict log) (id : OrderId) :
    ((orderInLog log id).map fun order => order.filledSizeLots.toNat).getD 0 =
      filledInLog log id := by
  induction h with
  | nil => rfl
  | append timestampMs init last ih =>
      rw [orderInLog_append, filledInLog_append, ← ih]
      cases last with
      | @orderAccepted new fresh status unfilled positive created =>
          simp only [viewStep, Event.fillSize, Nat.add_zero]
          split
          · next hid => simp [hid, fresh, unfilled]
          · rfl
      | @fill fill taker maker htaker hmaker legal =>
          rw [viewStep_fill legal.distinct, Event.fillSize]
          split
          · next hid =>
              rcases hid with rfl | rfl
              · simp only [htaker, Option.map_some, Option.getD_some]
                exact fillOrder_toNat
                  (init.loggedOrder htaker).consistent.filled_le
                  legal.takerRoom _
              · simp only [hmaker, Option.map_some, Option.getD_some]
                exact fillOrder_toNat
                  (init.loggedOrder hmaker).consistent.filled_le
                  legal.makerRoom _
          · rw [Nat.add_zero]
      | @orderCancelled cancelled old reason hold live =>
          simp only [viewStep, Event.fillSize, Nat.add_zero]
          split
          · cases orderInLog _ id <;> rfl
          · rfl
      | marketPaused => rfl
      | marketResumed => rfl

theorem LegalLog.filledSizeLots_toNat (h : LegalLog strict log) {id : OrderId}
    {order : Order} (hview : orderInLog log id = some order) :
    order.filledSizeLots.toNat = filledInLog log id := by
  simpa [hview] using h.filledInLog_eq id

def DistinctHashes (log : List SequencedEvent) : Prop :=
  ∀ a ∈ accepted log, ∀ b ∈ accepted log, a.orderHash = b.orderHash →
    a.orderId = b.orderId

theorem DistinctHashes.of_append {after : List SequencedEvent}
    (h : DistinctHashes (log ++ after)) : DistinctHashes log := by
  have hmem : ∀ order ∈ accepted log, order ∈ accepted (log ++ after) := by
    intro order hmem
    simpa [accepted] using .inl (List.mem_filterMap.mp hmem)
  exact fun a ha b hb => h a (hmem a ha) b (hmem b hb)

theorem LegalLog.orderId_of_hash (hdistinct : DistinctHashes log)
    {id id' : OrderId} {order order' : Order}
    (hview : orderInLog log id = some order)
    (hview' : orderInLog log id' = some order')
    (hhash : order.orderHash = order'.orderHash) : id = id' := by
  obtain ⟨new, hmem, rfl, hterms⟩ := orderInLog_accepted hview
  obtain ⟨new', hmem', rfl, hterms'⟩ := orderInLog_accepted hview'
  have hnew : order.orderHash = new.orderHash := by
    simpa using congrArg Order.orderHash hterms
  have hnew' : order'.orderHash = new'.orderHash := by
    simpa using congrArg Order.orderHash hterms'
  exact hdistinct new hmem new' hmem' (by rw [← hnew, ← hnew', hhash])

theorem filledAmount_addFilled (state : StateStore) (hash hash' : Bytes32)
    (qty : UInt64) :
    (state.addFilled hash qty).filledAmount hash' =
      if hash' = hash then state.filledAmount hash + qty
      else state.filledAmount hash' := by
  unfold StateStore.addFilled
  rw [StateStore.filledAmount]
  simp only [HashMap.get?_insert]
  split
  · rfl
  · rfl

theorem filledAmount_raiseNonce (state : StateStore) (traderId : String)
    (nonce : UInt64) (hash : Bytes32) :
    (Replay.raiseNonce state traderId nonce).filledAmount hash =
      state.filledAmount hash := by
  unfold Replay.raiseNonce
  split <;> rfl

theorem OrderHash.bytes_ne {hash hash' : OrderHash} (h : hash ≠ hash') :
    hash.bytes ≠ hash'.bytes := by
  cases hash
  cases hash'
  simpa using h

theorem orderInLog_orderHash {id : OrderId} {order : Order}
    (hview : orderInLog log id = some order) {hash : OrderHash}
    (hunknown : ∀ order ∈ accepted log, order.orderHash ≠ hash) :
    hash ≠ order.orderHash := by
  obtain ⟨new, hmem, -, hterms⟩ := orderInLog_accepted hview
  have hnew : order.orderHash = new.orderHash := by
    simpa using congrArg Order.orderHash hterms
  rw [hnew]
  exact (hunknown new hmem).symm

theorem LegalLog.filledAmount_unknown (h : LegalLog strict log)
    {hash : OrderHash}
    (hunknown : ∀ order ∈ accepted log, order.orderHash ≠ hash) :
    (stateInLog log).filledAmount hash.bytes = 0 := by
  induction h with
  | nil => rfl
  | append timestampMs init last ih =>
      simp only [accepted_append, List.mem_append] at hunknown
      have ih := ih fun order hmem => hunknown order (.inl hmem)
      rw [stateInLog_append]
      cases last with
      | orderAccepted => exact (filledAmount_raiseNonce _ _ _ _).trans ih
      | fill htaker hmaker legal =>
          have htakerHash := orderInLog_orderHash htaker fun o hmem =>
            hunknown o (.inl hmem)
          have hmakerHash := orderInLog_orderHash hmaker fun o hmem =>
            hunknown o (.inl hmem)
          rw [← legal.takerHash] at htakerHash
          rw [← legal.makerHash] at hmakerHash
          simp only [stateStep, StateStore.applyFill, filledAmount_addFilled,
            OrderHash.bytes_ne htakerHash, OrderHash.bytes_ne hmakerHash,
            if_false, ih]
      | orderCancelled => exact ih
      | marketPaused => exact ih
      | marketResumed => exact ih

theorem filledAmount_fill (hdistinct : DistinctHashes log) {fill : Fill}
    {taker maker : Order}
    (htaker : orderInLog log fill.takerOrderId = some taker)
    (hmaker : orderInLog log fill.makerOrderId = some maker)
    (legal : LegalFill strict fill taker maker)
    (hstore : ∀ {id order}, orderInLog log id = some order →
      (stateInLog log).filledAmount order.orderHash.bytes =
        order.filledSizeLots)
    {seqId : Nat} {timestampMs : UInt64} {id : OrderId} {order : Order}
    (hview : viewStep id (orderInLog log id)
      ⟨seqId, timestampMs, .fill fill⟩ = some order) :
    ((stateInLog log).applyFill fill.takerOrderHash.bytes
      fill.makerOrderHash.bytes fill.sizeLots).filledAmount
        order.orderHash.bytes = order.filledSizeLots := by
  rw [viewStep_fill legal.distinct] at hview
  simp only [StateStore.applyFill, filledAmount_addFilled, legal.takerHash,
    legal.makerHash]
  have hne : taker.orderHash ≠ maker.orderHash := fun hhash =>
    legal.distinct (LegalLog.orderId_of_hash hdistinct htaker hmaker hhash)
  by_cases htakerId : id = fill.takerOrderId
  · subst htakerId
    rw [if_pos (.inl rfl), htaker, Option.map_some, Option.some.injEq] at hview
    subst hview
    rw [fillOrder_orderHash, fillOrder_filledSizeLots]
    rw [if_neg (OrderHash.bytes_ne hne), if_pos rfl, hstore htaker]
  · by_cases hmakerId : id = fill.makerOrderId
    · subst hmakerId
      rw [if_pos (.inr rfl), hmaker, Option.map_some,
        Option.some.injEq] at hview
      subst hview
      rw [fillOrder_orderHash, fillOrder_filledSizeLots]
      rw [if_pos rfl, if_neg (OrderHash.bytes_ne hne.symm), hstore hmaker]
    · rw [if_neg (by simp [htakerId, hmakerId])] at hview
      have htakerHash : order.orderHash ≠ taker.orderHash := fun hhash =>
        htakerId (LegalLog.orderId_of_hash hdistinct hview htaker hhash)
      have hmakerHash : order.orderHash ≠ maker.orderHash := fun hhash =>
        hmakerId (LegalLog.orderId_of_hash hdistinct hview hmaker hhash)
      rw [if_neg (OrderHash.bytes_ne hmakerHash),
        if_neg (OrderHash.bytes_ne htakerHash), hstore hview]

theorem LegalLog.filledAmount_eq (h : LegalLog strict log)
    (hdistinct : DistinctHashes log) {id : OrderId} {order : Order}
    (hview : orderInLog log id = some order) :
    (stateInLog log).filledAmount order.orderHash.bytes =
      order.filledSizeLots := by
  induction h generalizing id order with
  | nil => cases hview
  | append timestampMs init last ih =>
      have hinit := hdistinct.of_append
      have ih := @ih hinit
      rw [stateInLog_append]
      rw [orderInLog_append] at hview
      cases last with
      | @orderAccepted new fresh status unfilled positive created =>
          refine (filledAmount_raiseNonce _ _ _ _).trans ?_
          simp only [viewStep] at hview
          split at hview
          · obtain rfl := Option.some.inj hview
            rw [unfilled]
            refine init.filledAmount_unknown fun old hmem hhash => ?_
            have hid := hdistinct old (by simp [accepted_append, hmem]) new
              (by simp [accepted_append, Event.accepts]) hhash
            have hsome := orderInLog_isSome hmem
            rw [hid, fresh] at hsome
            cases hsome
          · exact ih hview
      | @fill fill taker maker htaker hmaker legal =>
          exact filledAmount_fill hinit htaker hmaker legal ih hview
      | @orderCancelled cancelled old reason hold live =>
          rw [viewStep_cancel] at hview
          split at hview
          · obtain ⟨before, hbefore, rfl⟩ := Option.map_eq_some_iff.mp hview
            have hsame := ih hbefore
            exact hsame
          · exact ih hview
      | marketPaused => exact ih hview
      | marketResumed => exact ih hview

end Legal

end ClobApi
