import ClobApi.Engine.Matching

/-!
# The order book's representation invariant

`OrderBook.Valid` ties the two level maps to the order map: an id is queued at
exactly the side and price of a stored order that is still live, and each queue
is ordered by `createdSequence`.  Inserting, filling and cancelling keep it.
-/

namespace ClobApi

open Foundation

/-! ## Parts of one order -/

/-- An order up to the sequence number of its last update. -/
def Order.core (order : Order) : Order := { order with lastUpdateSequence := 0 }

/-- An order up to its status and its last update. -/
def Order.facts (order : Order) : Order := { order.core with status := .open }

/-- What an order keeps from its acceptance on. -/
def Order.terms (order : Order) : Order :=
  { order.facts with filledSizeLots := 0 }

theorem Order.facts_eq_of_core {order order' : Order}
    (h : order.core = order'.core) : order.facts = order'.facts := by
  unfold Order.facts
  rw [h]

theorem Order.terms_eq_of_facts {order order' : Order}
    (h : order.facts = order'.facts) : order.terms = order'.terms := by
  unfold Order.terms
  rw [h]

theorem Order.terms_eq_of_core {order order' : Order}
    (h : order.core = order'.core) : order.terms = order'.terms :=
  Order.terms_eq_of_facts (Order.facts_eq_of_core h)

theorem Order.filledSizeLots_eq_of_facts {order order' : Order}
    (h : order.facts = order'.facts) :
    order.filledSizeLots = order'.filledSizeLots := by
  change order.facts.filledSizeLots = order'.facts.filledSizeLots
  rw [h]

theorem Order.remainingSizeLots_eq_of_facts {order order' : Order}
    (h : order.facts = order'.facts) :
    order.remainingSizeLots = order'.remainingSizeLots := by
  change order.facts.remainingSizeLots = order'.facts.remainingSizeLots
  rw [h]

theorem Order.isClosed_eq_of_core {order order' : Order}
    (h : order.core = order'.core) : order.isClosed = order'.isClosed := by
  change order.core.isClosed = order'.core.isClosed
  rw [h]

@[simp] theorem Order.terms_orderId (order : Order) :
    order.terms.orderId = order.orderId := rfl
@[simp] theorem Order.terms_orderHash (order : Order) :
    order.terms.orderHash = order.orderHash := rfl
@[simp] theorem Order.terms_marketId (order : Order) :
    order.terms.marketId = order.marketId := rfl
@[simp] theorem Order.terms_traderId (order : Order) :
    order.terms.traderId = order.traderId := rfl
@[simp] theorem Order.terms_side (order : Order) :
    order.terms.side = order.side := rfl
@[simp] theorem Order.terms_priceTicks (order : Order) :
    order.terms.priceTicks = order.priceTicks := rfl
@[simp] theorem Order.terms_origSizeLots (order : Order) :
    order.terms.origSizeLots = order.origSizeLots := rfl
@[simp] theorem Order.terms_createdSequence (order : Order) :
    order.terms.createdSequence = order.createdSequence := rfl

/-! ## Sizes of one order -/

structure Order.Consistent (order : Order) : Prop where
  filled_le : order.filledSizeLots ≤ order.origSizeLots
  filled_lt : order.isClosed = false → order.filledSizeLots < order.origSizeLots
  open_iff : order.isClosed = false →
    (order.status = .open ↔ order.filledSizeLots = 0)

theorem Order.remainingSizeLots_toNat {order : Order}
    (h : order.filledSizeLots ≤ order.origSizeLots) :
    order.remainingSizeLots.toNat =
      order.origSizeLots.toNat - order.filledSizeLots.toNat := by
  unfold Order.remainingSizeLots
  exact UInt64.toNat_sub_of_le _ _ h

theorem Order.remainingSizeLots_eq_zero_iff {order : Order}
    (h : order.filledSizeLots ≤ order.origSizeLots) :
    order.remainingSizeLots = 0 ↔
      order.filledSizeLots = order.origSizeLots := by
  rw [← UInt64.toNat_inj, ← UInt64.toNat_inj, Order.remainingSizeLots_toNat h]
  rw [UInt64.le_iff_toNat_le] at h
  simp only [UInt64.toNat_zero]
  omega

theorem Order.Consistent.remaining_ne_zero {order : Order}
    (h : order.Consistent) (hopen : order.isClosed = false) :
    order.remainingSizeLots ≠ 0 := by
  rw [Ne, Order.remainingSizeLots_eq_zero_iff h.filled_le]
  intro heq
  have hlt := h.filled_lt hopen
  rw [heq] at hlt
  exact absurd hlt (UInt64.lt_irrefl _)

section ApplyFill

variable {order : Order} {qty : UInt64} {seqId : Nat}

@[simp] theorem applyFillTo_orderId :
    (applyFillTo order qty seqId).orderId = order.orderId := rfl
@[simp] theorem applyFillTo_side :
    (applyFillTo order qty seqId).side = order.side := rfl
@[simp] theorem applyFillTo_priceTicks :
    (applyFillTo order qty seqId).priceTicks = order.priceTicks := rfl
@[simp] theorem applyFillTo_traderId :
    (applyFillTo order qty seqId).traderId = order.traderId := rfl
@[simp] theorem applyFillTo_origSizeLots :
    (applyFillTo order qty seqId).origSizeLots = order.origSizeLots := rfl
@[simp] theorem applyFillTo_filledSizeLots :
    (applyFillTo order qty seqId).filledSizeLots = order.filledSizeLots + qty :=
  rfl
@[simp] theorem applyFillTo_createdSequence :
    (applyFillTo order qty seqId).createdSequence = order.createdSequence := rfl

theorem filled_add_toNat (hle : order.filledSizeLots ≤ order.origSizeLots)
    (hqty : qty ≤ order.remainingSizeLots) :
    (order.filledSizeLots + qty).toNat =
      order.filledSizeLots.toNat + qty.toNat := by
  rw [UInt64.le_iff_toNat_le, Order.remainingSizeLots_toNat hle] at hqty
  rw [UInt64.le_iff_toNat_le] at hle
  have hbound := order.origSizeLots.toNat_lt
  rw [UInt64.toNat_add]
  exact Nat.mod_eq_of_lt (by omega)

theorem applyFillTo_filled_le (seqId : Nat)
    (hle : order.filledSizeLots ≤ order.origSizeLots)
    (hqty : qty ≤ order.remainingSizeLots) :
    (applyFillTo order qty seqId).filledSizeLots ≤
      (applyFillTo order qty seqId).origSizeLots := by
  have hadd := filled_add_toNat hle hqty
  rw [UInt64.le_iff_toNat_le, Order.remainingSizeLots_toNat hle] at hqty
  rw [UInt64.le_iff_toNat_le] at hle ⊢
  simp only [applyFillTo_filledSizeLots, applyFillTo_origSizeLots]
  omega

theorem applyFillTo_status (order : Order) (qty : UInt64) (seqId : Nat) :
    (applyFillTo order qty seqId).status =
      if (applyFillTo order qty seqId).remainingSizeLots = 0 then .filled
      else .partiallyFilled := rfl

theorem applyFillTo_isClosed_iff :
    (applyFillTo order qty seqId).isClosed = true ↔
      (applyFillTo order qty seqId).remainingSizeLots = 0 := by
  rw [Order.isClosed, applyFillTo_status]
  split
  · next h => simp [h, OrderStatus.isClosed]
  · next h => simp [h, OrderStatus.isClosed]

theorem applyFillTo_consistent (hle : order.filledSizeLots ≤ order.origSizeLots)
    (hqty : qty ≤ order.remainingSizeLots) (hpos : qty ≠ 0) :
    (applyFillTo order qty seqId).Consistent := by
  have hle' := applyFillTo_filled_le seqId hle hqty
  have hlive : ∀ {o : Order}, o.filledSizeLots ≤ o.origSizeLots →
      o.remainingSizeLots ≠ 0 → o.filledSizeLots < o.origSizeLots := by
    intro o ho hne
    rw [Ne, Order.remainingSizeLots_eq_zero_iff ho] at hne
    exact UInt64.lt_of_le_of_ne ho hne
  refine ⟨hle', fun hopen => hlive hle' ?_, fun hopen => ?_⟩
  · intro hzero
    rw [applyFillTo_isClosed_iff.mpr hzero] at hopen
    cases hopen
  · have hne : (applyFillTo order qty seqId).remainingSizeLots ≠ 0 := by
      intro hzero
      rw [applyFillTo_isClosed_iff.mpr hzero] at hopen
      cases hopen
    rw [applyFillTo_status, if_neg hne]
    have hadd := filled_add_toNat hle hqty
    have hqty0 : qty.toNat ≠ 0 := fun h => hpos (UInt64.toNat_inj.mp h)
    constructor
    · intro h
      cases h
    · intro h
      rw [applyFillTo_filledSizeLots, ← UInt64.toNat_inj, hadd] at h
      simp only [UInt64.toNat_zero] at h
      omega

end ApplyFill

/-! ## The invariant -/

namespace OrderBook

def createdOf (book : OrderBook) (id : OrderId) : Nat :=
  ((book.get id).map Order.createdSequence).getD 0

structure Valid (book : OrderBook) : Prop where
  key : ∀ {id order}, book.get id = some order → order.orderId = id
  noEmpty : ∀ side, QueueMap.NoEmpty (book.levels side)
  queued_iff : ∀ {price side id}, id ∈ book.ordersAtPrice price side ↔
    ∃ order, book.get id = some order ∧ order.side = side ∧
      order.priceTicks = price ∧ order.isClosed = false
  fifo : ∀ price side,
    (book.ordersAtPrice price side).Pairwise fun i j =>
      book.createdOf i < book.createdOf j
  consistent : ∀ {id order}, book.get id = some order → order.Consistent

theorem createdOf_eq {book : OrderBook} {id : OrderId} {order : Order}
    (h : book.get id = some order) :
    book.createdOf id = order.createdSequence := by
  simp [createdOf, h]

theorem Valid.queue_nodup {book : OrderBook} (hvalid : book.Valid)
    (price : UInt64) (side : Side) : (book.ordersAtPrice price side).Nodup :=
  (hvalid.fifo price side).imp fun hlt heq => by subst heq; omega

theorem new_valid : OrderBook.new.Valid where
  key := by simp [new, get]
  noEmpty := by
    intro side
    cases side <;> exact QueueMap.noEmpty_empty
  queued_iff := by
    intro price side id
    cases side <;> simp [new, get, ordersAtPrice, levels]
  fifo := by
    intro price side
    cases side <;> simp [new, ordersAtPrice, levels]
  consistent := by simp [new, get]

/-! ## Insertion -/

theorem insert_fifo {book : OrderBook} (hvalid : book.Valid) {order : Order}
    (hfresh : book.get order.orderId = none)
    (hlater : ∀ id order', book.get id = some order' →
      order'.createdSequence < order.createdSequence)
    (price : UInt64) (side : Side) :
    ((book.insert order).ordersAtPrice price side).Pairwise fun i j =>
      (book.insert order).createdOf i < (book.insert order).createdOf j := by
  have hold : ∀ {id}, id ≠ order.orderId →
      (book.insert order).createdOf id = book.createdOf id := by
    intro id hid
    simp [createdOf, get_insert, hid]
  have hne : ∀ {id}, id ∈ book.ordersAtPrice price side →
      id ≠ order.orderId := by
    rintro id hmem rfl
    obtain ⟨order', hget, -⟩ := hvalid.queued_iff.mp hmem
    simp [hfresh] at hget
  have hkeep : (book.ordersAtPrice price side).Pairwise fun i j =>
      (book.insert order).createdOf i < (book.insert order).createdOf j := by
    refine (hvalid.fifo price side).imp_of_mem fun hi hj hlt => ?_
    rwa [hold (hne hi), hold (hne hj)]
  rw [ordersAtPrice_insert]
  split
  · rw [List.pairwise_append]
    refine ⟨hkeep, List.pairwise_singleton _ _, ?_⟩
    intro id hid id' hid'
    rw [List.mem_singleton] at hid'
    subst hid'
    obtain ⟨order', hget, -⟩ := hvalid.queued_iff.mp hid
    rw [hold (hne hid), createdOf_eq hget]
    simpa [createdOf, get_insert] using hlater id order' hget
  · exact hkeep

theorem insert_valid {book : OrderBook} (hvalid : book.Valid) {order : Order}
    (hopen : order.isClosed = false) (hconsistent : order.Consistent)
    (hfresh : book.get order.orderId = none)
    (hlater : ∀ id order', book.get id = some order' →
      order'.createdSequence < order.createdSequence) :
    (book.insert order).Valid where
  key := by
    intro id order' h
    rw [get_insert] at h
    split at h
    · next hid =>
        cases h
        exact hid.symm
    · exact hvalid.key h
  noEmpty := by
    intro side
    rw [levels_insert]
    split
    · exact QueueMap.noEmpty_pushBack (hvalid.noEmpty side) _ _
    · exact hvalid.noEmpty side
  queued_iff := by
    intro price side id
    have hqueued : id ∈ book.ordersAtPrice price side ↔ _ := hvalid.queued_iff
    rw [ordersAtPrice_insert, get_insert]
    by_cases hid : id = order.orderId
    · subst hid
      have hnot : order.orderId ∉ book.ordersAtPrice price side := by
        simp [hqueued, hfresh]
      split <;> grind
    · split <;> simp [hid, hqueued]
  fifo := insert_fifo hvalid hfresh hlater
  consistent := by
    intro id order' h
    rw [get_insert] at h
    split at h
    · cases h
      exact hconsistent
    · exact hvalid.consistent h

/-! ## Rewriting one live order -/

/-- Rewrite an order and take it out of its queue if that closed it. -/
def settle (book : OrderBook) (id : OrderId) (f : Order → Order) : OrderBook :=
  let book := book.modify id f
  if (book.get id).any Order.isClosed then book.removeFromQueueInner id
  else book

theorem fillMaker_eq_settle (book : OrderBook) (makerId : OrderId)
    (fillQty : UInt64) (seqId : Nat) :
    fillMaker book makerId fillQty seqId =
      book.settle makerId fun maker => applyFillTo maker fillQty seqId := rfl

theorem cancel_eq_settle {book : OrderBook} {id : OrderId} {order : Order}
    (h : book.get id = some order) (hopen : order.isClosed = false) :
    (book.cancel id).1 = book.settle id fun order =>
      { order with status := .cancelled } := by
  have hmodified :
      (book.modify id fun order => { order with status := .cancelled }).get id =
        some { order with status := .cancelled } := by
    simp [get_modify, h]
  have hclosed :
      ({ order with status := .cancelled } : Order).isClosed = true := rfl
  simp only [cancel, cancelWithStatus, h, hopen, settle, hmodified,
    Option.any_some, hclosed]
  rfl

theorem get_settle (book : OrderBook) (id id' : OrderId) (f : Order → Order) :
    (book.settle id f).get id' =
      if id' = id then (book.get id').map f else book.get id' := by
  simp only [settle]
  split <;> simp [get_modify]

section Settle

variable {book : OrderBook} {id : OrderId} {order : Order} {f : Order → Order}

theorem ordersAtPrice_settle (hget : book.get id = some order)
    (hside : (f order).side = order.side)
    (hprice : (f order).priceTicks = order.priceTicks)
    (price : UInt64) (side : Side) :
    (book.settle id f).ordersAtPrice price side =
      if (f order).isClosed = true ∧ side = order.side ∧
        price = order.priceTicks then
        (book.ordersAtPrice price side).filter fun id' => id' ≠ id
      else book.ordersAtPrice price side := by
  have hmodified : (book.modify id f).get id = some (f order) := by
    simp [get_modify, hget]
  unfold settle
  by_cases hclosed : (f order).isClosed = true
  · simp only [hmodified, Option.any_some, hclosed, if_true, true_and]
    rw [ordersAtPrice_removeFromQueueInner hmodified, hside, hprice,
      ordersAtPrice_modify]
  · simp [hmodified, hclosed]

theorem noEmpty_settle (hget : book.get id = some order)
    (h : ∀ side, QueueMap.NoEmpty (book.levels side)) (side : Side) :
    QueueMap.NoEmpty ((book.settle id f).levels side) := by
  have hmodified : (book.modify id f).get id = some (f order) := by
    simp [get_modify, hget]
  unfold settle
  simp only [hmodified, Option.any_some]
  split
  · rw [levels_removeFromQueueInner hmodified, levels_modify]
    split
    · exact QueueMap.noEmpty_remove (h side) _ _
    · exact h side
  · rw [levels_modify]
    exact h side

theorem createdOf_settle (hget : book.get id = some order)
    (hcreated : (f order).createdSequence = order.createdSequence)
    (id' : OrderId) :
    (book.settle id f).createdOf id' = book.createdOf id' := by
  unfold createdOf
  rw [get_settle]
  split
  · next h =>
      subst h
      simp [hget, hcreated]
  · rfl

theorem settle_valid (hvalid : book.Valid) (hget : book.get id = some order)
    (hopen : order.isClosed = false) (hid : (f order).orderId = order.orderId)
    (hside : (f order).side = order.side)
    (hprice : (f order).priceTicks = order.priceTicks)
    (hcreated : (f order).createdSequence = order.createdSequence)
    (hconsistent : (f order).Consistent) : (book.settle id f).Valid where
  key := by
    intro id' order' h
    rw [get_settle] at h
    split at h
    · next heq =>
        subst heq
        simp only [hget, Option.map_some, Option.some.injEq] at h
        rw [← h, hid]
        exact hvalid.key hget
    · exact hvalid.key h
  noEmpty := noEmpty_settle hget hvalid.noEmpty
  queued_iff := by
    intro price side id'
    have hqueued : id' ∈ book.ordersAtPrice price side ↔ _ := hvalid.queued_iff
    rw [ordersAtPrice_settle hget hside hprice, get_settle]
    by_cases heq : id' = id
    · subst heq
      simp only [hget, Option.some.injEq] at hqueued ⊢
      by_cases hclosed : (f order).isClosed = true
      · by_cases hlevel : side = order.side ∧ price = order.priceTicks
        · simp [hclosed, hlevel]
        · simp only [hclosed, hlevel, and_false, if_false, hqueued]
          grind
      · grind
    · split <;> simp [heq, hqueued]
  fifo := by
    intro price side
    have hfifo : (book.ordersAtPrice price side).Pairwise fun i j =>
        (book.settle id f).createdOf i < (book.settle id f).createdOf j := by
      refine (hvalid.fifo price side).imp fun hlt => ?_
      rwa [createdOf_settle hget hcreated, createdOf_settle hget hcreated]
    rw [ordersAtPrice_settle hget hside hprice]
    split
    · exact hfifo.filter _
    · exact hfifo
  consistent := by
    intro id' order' h
    rw [get_settle] at h
    split at h
    · next heq =>
        subst heq
        simp only [hget, Option.map_some, Option.some.injEq] at h
        exact h ▸ hconsistent
    · exact hvalid.consistent h

end Settle

theorem cancel_valid {book : OrderBook} (hvalid : book.Valid) {id : OrderId}
    {order : Order} (hget : book.get id = some order)
    (hopen : order.isClosed = false) : (book.cancel id).1.Valid := by
  rw [cancel_eq_settle hget hopen]
  refine settle_valid hvalid hget hopen rfl rfl rfl rfl ?_
  exact ⟨(hvalid.consistent hget).filled_le,
    by simp [Order.isClosed, OrderStatus.isClosed],
    by simp [Order.isClosed, OrderStatus.isClosed]⟩

theorem fillMaker_valid {book : OrderBook} (hvalid : book.Valid) {id : OrderId}
    {order : Order} (hget : book.get id = some order)
    (hopen : order.isClosed = false) {qty : UInt64}
    (hqty : qty ≤ order.remainingSizeLots) (hpos : qty ≠ 0) (seqId : Nat) :
    (fillMaker book id qty seqId).Valid := by
  rw [fillMaker_eq_settle]
  exact settle_valid hvalid hget hopen rfl rfl rfl rfl
    (applyFillTo_consistent (hvalid.consistent hget).filled_le hqty hpos)

/-! ## Resting orders and their priority -/

def Resting (book : OrderBook) (side : Side) (order : Order) : Prop :=
  ∃ price, order.orderId ∈ book.ordersAtPrice price side ∧
    book.get order.orderId = some order

theorem Valid.resting_iff {book : OrderBook} (hvalid : book.Valid) {side : Side}
    {order : Order} :
    book.Resting side order ↔
      book.get order.orderId = some order ∧ order.side = side ∧
        order.isClosed = false := by
  constructor
  · rintro ⟨price, hmem, hget⟩
    obtain ⟨order', hget', hside, -, hopen⟩ := hvalid.queued_iff.mp hmem
    rw [hget] at hget'
    cases hget'
    exact ⟨hget, hside, hopen⟩
  · rintro ⟨hget, hside, hopen⟩
    exact ⟨order.priceTicks,
      hvalid.queued_iff.mpr ⟨order, hget, hside, rfl, hopen⟩, hget⟩

end OrderBook

def Side.Better : Side → UInt64 → UInt64 → Prop
  | .sell, p, q => p < q
  | .buy, p, q => q < p

def Order.Precedes (side : Side) (order order' : Order) : Prop :=
  Prod.Lex side.Better (· < ·) (order.priceTicks, order.createdSequence)
    (order'.priceTicks, order'.createdSequence)

def OrderBook.First (book : OrderBook) (side : Side) (order : Order) : Prop :=
  book.Resting side order ∧
    ∀ order', book.Resting side order' → order' ≠ order →
      order.Precedes side order'

end ClobApi
