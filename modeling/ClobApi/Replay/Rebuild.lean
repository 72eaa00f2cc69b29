import ClobApi.Replay.LegalLog

/-!
# The books that replay builds

Replay sorts the open orders by `createdSequence` and inserts them one by one.
For a legal log each book it builds is valid and stores exactly the orders of
its market that the log leaves open, whatever order the working map yields its
values in.
-/

namespace ClobApi

open Foundation

/-! ## Inserting a sorted list of orders -/

/-- The orders can rest in one book in this order. -/
structure Insertable (orders : List Order) : Prop where
  sorted : orders.Pairwise fun a b => a.createdSequence < b.createdSequence
  ids : orders.Pairwise fun a b => a.orderId ≠ b.orderId
  live : ∀ order ∈ orders, order.isClosed = false ∧ order.Consistent

def bookOf (orders : List Order) : OrderBook :=
  orders.foldl OrderBook.insert .new

theorem bookOf_append (orders : List Order) (order : Order) :
    bookOf (orders ++ [order]) = (bookOf orders).insert order := by
  simp [bookOf]

theorem Insertable.of_append {orders : List Order} {order : Order}
    (h : Insertable (orders ++ [order])) :
    Insertable orders ∧ order.isClosed = false ∧ order.Consistent ∧
      ∀ order' ∈ orders, order'.createdSequence < order.createdSequence ∧
        order'.orderId ≠ order.orderId := by
  obtain ⟨hsorted, hids, hlive⟩ := h
  rw [List.pairwise_append] at hsorted hids
  refine ⟨⟨hsorted.1, hids.1, fun o ho => hlive o (by simp [ho])⟩,
    (hlive order (by simp)).1, (hlive order (by simp)).2, fun order' hmem => ?_⟩
  exact ⟨hsorted.2.2 _ hmem _ (by simp), hids.2.2 _ hmem _ (by simp)⟩

theorem get_bookOf {orders : List Order}
    (hids : orders.Pairwise fun a b => a.orderId ≠ b.orderId) (id : OrderId)
    (order : Order) :
    (bookOf orders).get id = some order ↔
      order ∈ orders ∧ order.orderId = id := by
  induction orders using List.reverseRecOn with
  | nil => simp [bookOf, OrderBook.new, OrderBook.get]
  | append_singleton orders new ih =>
      obtain ⟨hinit, -, hnew⟩ := List.pairwise_append.mp hids
      rw [bookOf_append, OrderBook.get_insert]
      split
      · next hid =>
          subst hid
          constructor
          · intro h
            cases h
            simp
          · rintro ⟨hmem, hid⟩
            rw [List.mem_append, List.mem_singleton] at hmem
            rcases hmem with hmem | rfl
            · exact absurd hid (hnew _ hmem _ (by simp))
            · rfl
      · next hid =>
          rw [ih hinit]
          grind

theorem bookOf_valid {orders : List Order} (h : Insertable orders) :
    (bookOf orders).Valid := by
  induction orders using List.reverseRecOn with
  | nil => exact OrderBook.new_valid
  | append_singleton orders new ih =>
      obtain ⟨hinit, hopen, hconsistent, hnew⟩ := h.of_append
      rw [bookOf_append]
      refine OrderBook.insert_valid (ih hinit) hopen hconsistent ?_
        fun id order' hget => ?_
      · rw [Option.eq_none_iff_forall_ne_some]
        intro order' hget
        obtain ⟨hmem, hid⟩ := (get_bookOf hinit.ids _ _).mp hget
        exact (hnew _ hmem).2 hid
      · exact (hnew _ ((get_bookOf hinit.ids _ _).mp hget).1).1

theorem noEmpty_bookOf (orders : List Order) (side : Side) :
    QueueMap.NoEmpty ((bookOf orders).levels side) := by
  induction orders using List.reverseRecOn with
  | nil => cases side <;> exact QueueMap.noEmpty_empty
  | append_singleton orders new ih =>
      rw [bookOf_append, OrderBook.levels_insert]
      split
      · exact QueueMap.noEmpty_pushBack ih _ _
      · exact ih

def atPrice (side : Side) (price : UInt64) (orders : List Order) : List Order :=
  orders.filter fun order => order.side = side ∧ order.priceTicks = price

theorem ordersAtPrice_bookOf (orders : List Order) (price : UInt64)
    (side : Side) :
    (bookOf orders).ordersAtPrice price side =
      (atPrice side price orders).map Order.orderId := by
  induction orders using List.reverseRecOn with
  | nil => cases side <;> exact QueueMap.queue_empty price
  | append_singleton orders new ih =>
      rw [bookOf_append, OrderBook.ordersAtPrice_insert, ih, atPrice, atPrice,
        List.filter_append]
      by_cases hnew : new.side = side ∧ new.priceTicks = price
      · obtain ⟨rfl, rfl⟩ := hnew
        simp
      · have hnot : ¬ (side = new.side ∧ price = new.priceTicks) :=
          fun h => hnew ⟨h.1.symm, h.2.symm⟩
        rw [if_neg hnot]
        simp [hnew]

/-! ## One book for each market -/

def inMarket (marketId : String) (orders : List Order) : List Order :=
  orders.filter fun order => order.marketId.value == marketId

theorem mem_inMarket {marketId : String} {orders : List Order} {order : Order} :
    order ∈ inMarket marketId orders ↔
      order ∈ orders ∧ order.marketId.value = marketId := by
  simp [inMarket]

theorem foldl_insertOrder (orders : List Order) (marketId : String) :
    (orders.foldl Replay.insertOrder .empty).get? marketId =
      if inMarket marketId orders = [] then none
      else some (bookOf (inMarket marketId orders)) := by
  induction orders using List.reverseRecOn with
  | nil => rfl
  | append_singleton orders order ih =>
      have hnone : inMarket marketId orders = [] →
          bookOf (inMarket marketId orders) = .new := by
        intro h
        rw [h]
        rfl
      rw [List.foldl_append, List.foldl_cons, List.foldl_nil,
        Replay.insertOrder, HashMap.get?_insert]
      by_cases hmarket : order.marketId.value = marketId
      · subst hmarket
        have happend : inMarket order.marketId.value (orders ++ [order]) =
            inMarket order.marketId.value orders ++ [order] := by
          simp [inMarket]
        have hne : inMarket order.marketId.value orders ++ [order] ≠ [] := by
          simp
        rw [if_pos rfl, happend, ih, bookOf_append, if_neg hne]
        split
        · next h => rw [hnone h, Option.getD_none]
        · rw [Option.getD_some]
      · have happend : inMarket marketId (orders ++ [order]) =
            inMarket marketId orders := by
          simp [inMarket, hmarket]
        rw [if_neg (fun h => hmarket h.symm), happend, ih]

theorem buildBooks_eq_bookOf (shuffle : Shuffle Order)
    (orders : HashMap OrderId Order) (marketId : String) :
    ((Replay.buildBooks shuffle orders).get? marketId).getD .new =
      bookOf (inMarket marketId (Replay.openOrders shuffle orders)) := by
  rw [Replay.buildBooks, foldl_insertOrder]
  split
  · next h =>
      rw [h]
      rfl
  · rfl

/-! ## The open orders of a replayed log -/

theorem mem_openOrders (shuffle : Shuffle Order)
    (orders : HashMap OrderId Order) (order : Order) :
    order ∈ Replay.openOrders shuffle orders ↔
      (∃ id, orders.get? id = some order) ∧ order.isClosed = false := by
  unfold Replay.openOrders
  rw [(List.perm_insertionSort _ _).mem_iff, List.mem_filter,
    (shuffle.perm _).mem_iff, HashMap.mem_values]
  simp

theorem values_pairwise {α : Type} (f : Order → α)
    {orders : HashMap OrderId Order}
    (hinj : ∀ {id id' order order'}, orders.get? id = some order →
      orders.get? id' = some order' → f order = f order' → id = id') :
    orders.values.Pairwise fun a b => f a ≠ f b := by
  have hvalues : orders.values = orders.bindings.map Prod.snd := by
    simp [HashMap.values, HashMap.bindings]
  rw [hvalues, List.pairwise_map]
  refine List.Pairwise.imp_of_mem ?_ (List.pairwise_map.mp orders.keys_nodup)
  rintro ⟨id, order⟩ ⟨id', order'⟩ hmem hmem' hne heq
  exact hne (hinj ((orders.mem_bindings _ _).mp hmem)
    ((orders.mem_bindings _ _).mp hmem') heq)

theorem orderInLog_orderId {log : List SequencedEvent} {id : OrderId}
    {order : Order} (h : orderInLog log id = some order) :
    order.orderId = id := by
  obtain ⟨new, -, rfl, hterms⟩ := orderInLog_accepted h
  simpa using congrArg Order.orderId hterms

/-- The order `id` if the log leaves it open. -/
def leftOpen (log : List SequencedEvent) (id : OrderId) : Option Order :=
  (orderInLog log id).filter fun order => !order.isClosed

theorem leftOpen_eq_some {log : List SequencedEvent} {id : OrderId}
    {order : Order} :
    leftOpen log id = some order ↔
      orderInLog log id = some order ∧ order.isClosed = false := by
  simp [leftOpen, Option.filter_eq_some_iff]

section Viewed

variable {log : List SequencedEvent} {orders : HashMap OrderId Order}
  (horders : ∀ id, orders.get? id = orderInLog log id)
  (shuffle : Shuffle Order)

include horders

theorem mem_openOrders_viewed {order : Order} :
    order ∈ Replay.openOrders shuffle orders ↔
      leftOpen log order.orderId = some order := by
  rw [mem_openOrders, leftOpen_eq_some]
  refine and_congr_left fun _ =>
    ⟨fun ⟨id, hget⟩ => ?_, fun h => ⟨_, (horders _).trans h⟩⟩
  rw [horders] at hget
  rwa [orderInLog_orderId hget]

theorem openOrders_ids :
    (Replay.openOrders shuffle orders).Pairwise fun a b =>
      a.orderId ≠ b.orderId := by
  refine ((List.perm_insertionSort _ _).pairwise_iff fun h => h.symm).mpr
    (List.Pairwise.filter _ ?_)
  refine ((shuffle.perm _).pairwise_iff fun h => h.symm).mpr
    (values_pairwise Order.orderId fun {id id' order order'} h h' heq => ?_)
  rw [horders] at h h'
  rw [← orderInLog_orderId h, heq, orderInLog_orderId h']

theorem get_buildBooks (marketId : String) (id : OrderId) (order : Order) :
    (((Replay.buildBooks shuffle orders).get? marketId).getD .new).get id =
        some order ↔
      leftOpen log id = some order ∧ order.marketId.value = marketId := by
  have hids : (inMarket marketId (Replay.openOrders shuffle orders)).Pairwise
      fun a b => a.orderId ≠ b.orderId :=
    (openOrders_ids horders shuffle).filter _
  rw [buildBooks_eq_bookOf, get_bookOf hids, mem_inMarket,
    mem_openOrders_viewed horders]
  constructor
  · rintro ⟨⟨hopen, hmarket⟩, rfl⟩
    exact ⟨hopen, hmarket⟩
  · rintro ⟨hopen, hmarket⟩
    have hid := orderInLog_orderId (leftOpen_eq_some.mp hopen).1
    exact ⟨⟨by rwa [hid], hmarket⟩, hid⟩

end Viewed

section Legal

variable {strict : Prop} {log : List SequencedEvent}
  {orders : HashMap OrderId Order}

theorem openOrders_sorted (hlegal : LegalLog strict log)
    (horders : ∀ id, orders.get? id = orderInLog log id)
    (shuffle : Shuffle Order) :
    (Replay.openOrders shuffle orders).Pairwise
      fun a b => a.createdSequence < b.createdSequence := by
  refine pairwise_lt_insertionSort Order.createdSequence _
    (List.Pairwise.filter _ ?_)
  refine ((shuffle.perm _).pairwise_iff fun h => h.symm).mpr
    (values_pairwise Order.createdSequence ?_)
  intro id id' order order' h h'
  rw [horders] at h h'
  exact hlegal.created_injective h h'

theorem openOrders_insertable (hlegal : LegalLog strict log)
    (horders : ∀ id, orders.get? id = orderInLog log id)
    (shuffle : Shuffle Order) :
    Insertable (Replay.openOrders shuffle orders) where
  sorted := openOrders_sorted hlegal horders shuffle
  ids := openOrders_ids horders shuffle
  live := by
    intro order hmem
    obtain ⟨hview, hopen⟩ :=
      leftOpen_eq_some.mp ((mem_openOrders_viewed horders shuffle).mp hmem)
    exact ⟨hopen, (hlegal.loggedOrder hview).consistent⟩

theorem Insertable.inMarket {orders : List Order} (h : Insertable orders)
    (marketId : String) : Insertable (inMarket marketId orders) :=
  ⟨h.sorted.filter _, h.ids.filter _,
    fun order hmem => h.live order (mem_inMarket.mp hmem).1⟩

/-- A rebuilt book is valid and stores the open orders of its market. -/
theorem buildBooks_book (hlegal : LegalLog strict log)
    (horders : ∀ id, orders.get? id = orderInLog log id)
    (shuffle : Shuffle Order) (marketId : String) :
    (((Replay.buildBooks shuffle orders).get? marketId).getD .new).Valid ∧
      ∀ id order,
        (((Replay.buildBooks shuffle orders).get? marketId).getD .new).get id =
          some order ↔
        orderInLog log id = some order ∧ order.isClosed = false ∧
          order.marketId.value = marketId := by
  constructor
  · rw [buildBooks_eq_bookOf]
    exact bookOf_valid
      ((openOrders_insertable hlegal horders shuffle).inMarket marketId)
  · intro id order
    rw [get_buildBooks horders, leftOpen_eq_some, and_assoc]

end Legal

theorem buildBooks_isSome (shuffle : Shuffle Order)
    (orders : HashMap OrderId Order) (marketId : String) :
    ((Replay.buildBooks shuffle orders).get? marketId).isSome = true ↔
      ∃ id order, orders.get? id = some order ∧ order.isClosed = false ∧
        order.marketId.value = marketId := by
  rw [Replay.buildBooks, foldl_insertOrder]
  constructor
  · intro h
    split at h
    · cases h
    next hne =>
    obtain ⟨order, hmem⟩ := List.exists_mem_of_ne_nil _ hne
    obtain ⟨hopen, hmarket⟩ := mem_inMarket.mp hmem
    obtain ⟨⟨id, hget⟩, hopen⟩ := (mem_openOrders _ _ _).mp hopen
    exact ⟨id, order, hget, hopen, hmarket⟩
  · rintro ⟨id, order, hget, hopen, hmarket⟩
    have hmem := mem_inMarket.mpr
      ⟨(mem_openOrders shuffle _ _).mpr ⟨⟨id, hget⟩, hopen⟩, hmarket⟩
    rw [if_neg (List.ne_nil_of_mem hmem)]
    rfl

end ClobApi
