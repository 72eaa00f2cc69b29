import ClobApi.Engine.Acceptance
import ClobApi.Guarantees.Checksums
import ClobApi.Guarantees.Recovery

/-!
# What a snapshot protects

The checksum of a snapshot is that of the state store.  It vouches for the state
store that its events give, and for nothing else that replay builds from them.
-/

namespace ClobApi

open Foundation

/-! ## What the books show -/

/-- What a book shows of an order besides its place in a queue. -/
structure ShownOrder where
  orderId : OrderId
  side : Side
  priceTicks : UInt64
  origSizeLots : UInt64
  filledSizeLots : UInt64
  status : OrderStatus
  deriving DecidableEq

def Order.shown (order : Order) : ShownOrder where
  orderId := order.orderId
  side := order.side
  priceTicks := order.priceTicks
  origSizeLots := order.origSizeLots
  filledSizeLots := order.filledSizeLots
  status := order.status

/--
The books of all markets have the same price levels and queues and show the same
of every order.
-/
def SameBooks (books books' : HashMap String OrderBook) : Prop :=
  ∀ marketId,
    (∀ side, (bookAt books marketId).levels side =
      (bookAt books' marketId).levels side) ∧
    ∀ id, ((bookAt books marketId).get id).map Order.shown =
      ((bookAt books' marketId).get id).map Order.shown

/-- The orders that the events leave open, oldest first. -/
def openAfter (shuffle : Shuffle Order) (events : List SequencedEvent) :
    List Order :=
  match Replay.walk events with
  | .ok progress => Replay.openOrders shuffle progress.orders
  | .error _ => []

/-- What is shown of those at one price of a market. -/
def openAt (shuffle : Shuffle Order) (events : List SequencedEvent)
    (marketId : String) (side : Side) (price : UInt64) : List ShownOrder :=
  (atPrice side price (inMarket marketId (openAfter shuffle events))).map
    Order.shown

section Shown

variable {orders orders' : List Order}

theorem shown_bookOf (hids : orders.Pairwise fun a b => a.orderId ≠ b.orderId)
    (id : OrderId) (shown : ShownOrder) :
    ((bookOf orders).get id).map Order.shown = some shown ↔
      shown ∈ (atPrice shown.side shown.priceTicks orders).map Order.shown ∧
        shown.orderId = id := by
  simp only [Option.map_eq_some_iff, get_bookOf hids, List.mem_map, atPrice,
    List.mem_filter, decide_eq_true_eq]
  constructor
  · rintro ⟨order, ⟨hmem, rfl⟩, rfl⟩
    exact ⟨⟨order, ⟨hmem, rfl, rfl⟩, rfl⟩, rfl⟩
  · rintro ⟨⟨order, ⟨hmem, -, -⟩, rfl⟩, rfl⟩
    exact ⟨order, ⟨hmem, rfl⟩, rfl⟩

theorem shown_atPrice (hids : orders.Pairwise fun a b => a.orderId ≠ b.orderId)
    (side : Side) (price : UInt64) :
    (atPrice side price orders).map Order.shown =
      ((bookOf orders).ordersAtPrice price side).filterMap fun id =>
        ((bookOf orders).get id).map Order.shown := by
  rw [ordersAtPrice_bookOf, List.filterMap_map, ← List.filterMap_eq_map]
  refine List.filterMap_congr fun order hmem => ?_
  have hget := (get_bookOf hids order.orderId order).mpr
    ⟨List.mem_of_mem_filter hmem, rfl⟩
  simp [hget]

/-- Books of the same orders at each price are the same. -/
theorem bookOf_same_iff
    (hids : orders.Pairwise fun a b => a.orderId ≠ b.orderId)
    (hids' : orders'.Pairwise fun a b => a.orderId ≠ b.orderId) :
    ((∀ side, (bookOf orders).levels side = (bookOf orders').levels side) ∧
      ∀ id, ((bookOf orders).get id).map Order.shown =
        ((bookOf orders').get id).map Order.shown) ↔
      ∀ side price, (atPrice side price orders).map Order.shown =
        (atPrice side price orders').map Order.shown := by
  constructor
  · rintro ⟨hlevels, hshown⟩ side price
    have hqueue : (bookOf orders).ordersAtPrice price side =
        (bookOf orders').ordersAtPrice price side := by
      unfold OrderBook.ordersAtPrice
      rw [hlevels]
    rw [shown_atPrice hids, shown_atPrice hids', hqueue]
    simp only [hshown]
  · intro hsame
    refine ⟨fun side => ?_, fun id => ?_⟩
    · refine QueueMap.ext_queue (noEmpty_bookOf orders side)
        (noEmpty_bookOf orders' side) fun price => ?_
      have hids : ∀ l : List Order, (bookOf l).ordersAtPrice price side =
          ((atPrice side price l).map Order.shown).map
            ShownOrder.orderId := by
        intro l
        rw [ordersAtPrice_bookOf, List.map_map]
        rfl
      change (bookOf orders).ordersAtPrice price side =
        (bookOf orders').ordersAtPrice price side
      rw [hids, hids, hsame]
    · ext shown
      rw [shown_bookOf hids, shown_bookOf hids', hsame]

end Shown

/-! ## Accepted snapshots -/

theorem loadSnapshot_ok {crypto : Crypto} {shuffle : Shuffle Order}
    {snap : Snapshot} {result : ReplayResult} {markets : List MarketConfig}
    {seq : Nat} (h : loadSnapshot crypto shuffle snap =
      .ok (result, markets, seq)) :
    replay shuffle snap.events = .ok result ∧
      hexEncode (result.state.checksum crypto).toList = snap.stateChecksum := by
  unfold loadSnapshot at h
  split at h
  · cases h
  cases hreplay : replay shuffle snap.events with
  | error error => simp [hreplay] at h
  | ok result' =>
      simp only [hreplay] at h
      split at h
      · cases h
      next hchecksum =>
      cases h
      exact ⟨rfl, by simpa using hchecksum⟩

/-- Replay of any events it accepts builds the books of the orders left open. -/
theorem replay_ok_viewed {shuffle : Shuffle Order}
    {events : List SequencedEvent} {result : ReplayResult}
    (h : replay shuffle events = .ok result) :
    (∀ marketId, bookAt result.books marketId =
      bookOf (inMarket marketId (openAfter shuffle events))) ∧
      ((openAfter shuffle events).Pairwise fun a b =>
        a.orderId ≠ b.orderId) ∧
      result.state = stateInLog events := by
  simp only [replay, bind, Except.bind, pure, Except.pure] at h
  cases hwalk : Replay.walk events with
  | error error => simp [hwalk] at h
  | ok progress =>
      simp only [hwalk, Except.ok.injEq] at h
      have hviews := walk_views hwalk
      have hopen : openAfter shuffle events =
          Replay.openOrders shuffle progress.orders := by
        unfold openAfter
        rw [hwalk]
      rw [← h, hopen]
      exact ⟨buildBooks_eq_bookOf shuffle progress.orders,
        openOrders_ids hviews.orders shuffle, hviews.state⟩

theorem sameBooks_iff {shuffle shuffle' : Shuffle Order}
    {events events' : List SequencedEvent} {result result' : ReplayResult}
    (h : replay shuffle events = .ok result)
    (h' : replay shuffle' events' = .ok result') :
    SameBooks result.books result'.books ↔ ∀ marketId side price,
      openAt shuffle events marketId side price =
        openAt shuffle' events' marketId side price := by
  obtain ⟨hbooks, hids, -⟩ := replay_ok_viewed h
  obtain ⟨hbooks', hids', -⟩ := replay_ok_viewed h'
  refine forall_congr' fun marketId => ?_
  rw [hbooks, hbooks']
  exact bookOf_same_iff (hids.filter _) (hids'.filter _)

/-! ## The ids of a run -/

theorem nonces_accepted {log : List SequencedEvent} {traderId : String}
    {nonce : UInt64}
    (h : (stateInLog log).nonces.get? traderId = some nonce) :
    ∃ order ∈ accepted log, order.traderId = traderId := by
  induction log using List.reverseRecOn with
  | nil => cases h
  | append_singleton log se ih =>
      have hkept : (stateInLog log).nonces.get? traderId = some nonce →
          ∃ order ∈ accepted (log ++ [se]), order.traderId = traderId := by
        intro hold
        obtain ⟨order, hmem, htrader⟩ := ih hold
        rw [accepted_append]
        exact ⟨order, List.mem_append_left _ hmem, htrader⟩
      rw [stateInLog_append] at h
      cases hevent : se.event with
      | orderAccepted new =>
          simp only [stateStep, hevent, Replay.raiseNonce] at h
          split at h
          · rw [HashMap.get?_insert] at h
            split at h
            · next htrader =>
                rw [accepted_append, hevent]
                exact ⟨new, List.mem_append_right _ (.head _), htrader.symm⟩
            · exact hkept h
          · exact hkept h
      | _ =>
          simp only [stateStep, hevent] at h
          exact hkept h

/-- The trader ids of a run are the hex digits of keys. -/
theorem Step.run_shortIds {crypto : Crypto} {ops : List Op} {e : Engine}
    (h : Run (Step crypto) .new ops e) : e.state.ShortIds := by
  intro traderId nonce hnonce
  rw [(Step.run_inv h).state.nonces] at hnonce
  obtain ⟨order, hmem, rfl⟩ := nonces_accepted hnonce
  rw [Step.run_accepted h] at hmem
  obtain ⟨⟨signed, order⟩, haccepted, rfl⟩ := List.mem_map.mp hmem
  obtain ⟨-, hauthentic, env, seqId, rfl⟩ := acceptances_built haccepted
  change (utf8Bytes signed.traderId).length < 65536
  rw [hauthentic.traderId, length_utf8Bytes_hexEncode]
  simp

/-! ## Altered events -/

namespace Sample

def asked : Engine := after [.addMarket market, .processOrder ask askEnv]

/-- The log of `asked`, with another price in its order. -/
def repriced : List SequencedEvent :=
  [⟨1, 2000, .orderAccepted { askOrder with priceTicks := 200 }⟩]

def repricedSnapshot : Snapshot :=
  createSnapshot 3000 repriced asked.listMarkets (asked.state.checksum crypto)

theorem repriced_version : repricedSnapshot.schemaVersion =
    (createSnapshot 3000 asked.log asked.listMarkets
      (asked.state.checksum crypto)).schemaVersion := by
  unfold repricedSnapshot createSnapshot
  rfl

theorem repriced_checksum : repricedSnapshot.stateChecksum =
    (createSnapshot 3000 asked.log asked.listMarkets
      (asked.state.checksum crypto)).stateChecksum := by
  unfold repricedSnapshot createSnapshot
  rfl

theorem asked_stepped : Run (Step crypto) .new
    [.addMarket market, .processOrder ask askEnv] asked :=
  asked_run.mono fun _ _ _ hstep => hstep.1

theorem repriced_loads :
    ∃ result, replay .id repriced = .ok result ∧
      result.state.Agrees asked.state ∧
      loadSnapshot crypto .id repricedSnapshot =
        .ok (result, asked.listMarkets, 1) := by
  have hlog : asked.log = [⟨1, 2000, .orderAccepted askOrder⟩] := ask_log
  obtain ⟨result, hreplay⟩ : ∃ result, replay .id repriced = .ok result :=
    ⟨_, rfl⟩
  obtain ⟨-, -, hstate⟩ := replay_ok_viewed hreplay
  have hsame : stateInLog repriced = stateInLog asked.log := by
    rw [hlog]
    rfl
  have hagrees : result.state.Agrees asked.state := by
    rw [hstate, hsame]
    exact (Step.run_inv asked_stepped).state.symm
  exact ⟨result, hreplay, hagrees,
    loadSnapshot_createSnapshot crypto hreplay hagrees 3000 asked.listMarkets⟩

end Sample

end ClobApi
