import ClobApi.Engine.BooksPresent
import ClobApi.Engine.Filing
import ClobApi.Guarantees.History

/-!
# Cancelling all orders of a market

`cancel_all_orders` cancels every order that the log ever accepted in the
market, closed ones included and each time anew, and leaves the books alone.  It
empties the market only if no order was ever accepted there.
-/

namespace ClobApi

open Foundation

def RestsIn (e : Engine) (marketId : String) (order : Order) : Prop :=
  ∃ book side, e.books.get? marketId = some book ∧ book.Resting side order

structure EmptiesMarket (crypto : Crypto) (e : Engine) (marketId : String)
    (wall : Nat → UInt64) : Prop where
  empty : ∀ order, ¬ RestsIn (e.cancelAllOrders marketId wall).1 marketId order
  cancels : ∃ orders : List Order, orders.Nodup ∧
    (∀ order, order ∈ orders ↔ RestsIn e marketId order) ∧
    Writes wall e (e.cancelAllOrders marketId wall).1
      (orders.map fun order =>
        .orderCancelled order.orderId order.orderHash .adminForce) ∧
    (e.cancelAllOrders marketId wall).2 = .ok orders.length
  marked : ∀ order, RestsIn e marketId order →
    (e.cancelAllOrders marketId wall).1.state.isCancelled
      order.orderHash.bytes = true
  others : ∀ other ≠ marketId,
    (e.cancelAllOrders marketId wall).1.books.get? other = e.books.get? other
  repeated : ∀ wall',
    ((e.cancelAllOrders marketId wall).1.cancelAllOrders marketId wall').2 =
        .ok 0 ∧
      ((e.cancelAllOrders marketId wall).1.cancelAllOrders marketId
        wall').1.log = (e.cancelAllOrders marketId wall).1.log
  noFill : ∀ ops e',
    Run (Step crypto) (e.cancelAllOrders marketId wall).1 ops e' →
      ∀ order, RestsIn e marketId order →
        ∀ se ∈ e'.log.drop (e.cancelAllOrders marketId wall).1.log.length,
          ∀ trade, se.event = .fill trade → ¬ se.event.Names order.orderId

/-! ## The orders it finds -/

section Found

variable {strict : Prop} {log : List SequencedEvent} {marketId : String}

theorem LegalLog.accepted_open (h : LegalLog strict log) :
    ∀ order ∈ accepted log, order.isClosed = false := by
  induction h with
  | nil => simp [accepted]
  | append timestampMs init last ih =>
      intro order hmem
      rw [accepted_append, List.mem_append, Option.mem_toList] at hmem
      rcases hmem with hmem | hmem
      · exact ih order hmem
      · cases last with
        | orderAccepted fresh status unfilled positive created =>
            cases hmem
            simp [Order.isClosed, status, OrderStatus.isClosed]
        | _ => cases hmem

/-- The filter of the code does not look at later events. -/
theorem LegalLog.filterMap_acceptedIn (h : LegalLog strict log)
    (marketId : String) :
    log.filterMap (Engine.acceptedIn marketId) =
      ((accepted log).filter fun order => order.marketId.value = marketId).map
        fun order => (order.orderId, order.orderHash) := by
  unfold accepted
  rw [List.filter_filterMap, List.map_filterMap]
  refine List.filterMap_congr fun se hse => ?_
  unfold Engine.acceptedIn
  cases hev : se.event with
  | orderAccepted order =>
      have haccepts : se.event.accepts = some order := by rw [hev]; rfl
      have hopen := h.accepted_open order
        (List.mem_filterMap.mpr ⟨se, hse, haccepts⟩)
      by_cases hmarket : order.marketId.value = marketId <;>
        simp [Event.accepts, hmarket, hopen]
  | _ => rfl

end Found

section Calls

variable {crypto : Crypto} {ops : List Op} {e : Engine} {marketId : String}
  {order : Order}

theorem cancelAllOrders_findMarket (wall : Nat → UInt64) :
    (e.cancelAllOrders marketId wall).1.findMarket marketId =
      e.findMarket marketId := by
  unfold Engine.findMarket Engine.listMarkets
  rw [(cancelAllOrders_tables e marketId wall).markets]

/-- Every order accepted in the market is cancelled, and no book sees it. -/
structure CancelsAccepted (e : Engine) (marketId : String)
    (wall : Nat → UInt64) (orders : List Order) : Prop where
  writes : Writes wall e (e.cancelAllOrders marketId wall).1
    (orders.map fun order =>
      .orderCancelled order.orderId order.orderHash .adminForce)
  answer : (e.cancelAllOrders marketId wall).2 = .ok orders.length
  books : (e.cancelAllOrders marketId wall).1.books = e.books

theorem cancelAllOrders_eq (hlegal : LegalLog False e.log)
    (hregistered : (e.findMarket marketId).isSome = true)
    (wall : Nat → UInt64) :
    e.cancelAllOrders marketId wall =
      ((((accepted e.log).filter fun order =>
        order.marketId.value = marketId).map fun order =>
          (order.orderId, order.orderHash)).foldl (Engine.forceCancel wall) e,
        .ok ((accepted e.log).filter fun order =>
          order.marketId.value = marketId).length) := by
  obtain ⟨market, hmarket⟩ := Option.isSome_iff_exists.mp hregistered
  unfold Engine.cancelAllOrders
  rw [hmarket, hlegal.filterMap_acceptedIn]
  simp

theorem cancelAllOrders_spec (hlegal : LegalLog False e.log)
    (hregistered : (e.findMarket marketId).isSome = true)
    (wall : Nat → UInt64) :
    CancelsAccepted e marketId wall ((accepted e.log).filter fun order =>
      order.marketId.value = marketId) := by
  have hcall := cancelAllOrders_eq hlegal hregistered wall
  refine ⟨?_, ?_, ?_⟩
  · have hwrites := Writes.foldl (f := Engine.forceCancel wall)
      (fun e target => ⟨rfl, rfl⟩)
      (((accepted e.log).filter fun order =>
        order.marketId.value = marketId).map fun order =>
          (order.orderId, order.orderHash)) e
    rw [List.map_map] at hwrites
    rw [hcall]
    exact hwrites
  · rw [hcall]
  · exact cancelAllOrders_books e marketId wall

theorem RestsIn.accepted (h : RestsIn e marketId order)
    (hinv : e.Inv False False noOrder) :
    ∃ new ∈ accepted e.log, new.marketId.value = marketId := by
  obtain ⟨book, side, hbook, hresting⟩ := h
  obtain ⟨hget, -, -⟩ := (hinv.sync.valid hbook).resting_iff.mp hresting
  obtain ⟨logged, hview, hmatches⟩ :=
    hinv.sync.stored (storedOrder_eq_some.mpr ⟨book, hbook, hget⟩)
  obtain ⟨new, hmem, -, hterms⟩ := orderInLog_accepted hview
  have hmarket : logged.marketId = new.marketId := by
    simpa using congrArg Order.marketId hterms
  exact ⟨new, hmem, hmarket ▸ hmatches.logged_market⟩

theorem cancelAllOrders_unused (hlegal : LegalLog False e.log)
    (hregistered : (e.findMarket marketId).isSome = true)
    (hnone : ∀ order ∈ accepted e.log, order.marketId.value ≠ marketId)
    (wall : Nat → UInt64) : e.cancelAllOrders marketId wall = (e, .ok 0) := by
  have hfound : ((accepted e.log).filter fun order =>
      order.marketId.value = marketId) = [] :=
    List.filter_eq_nil_iff.mpr (by simpa using hnone)
  rw [cancelAllOrders_eq hlegal hregistered, hfound]
  rfl

/--
In every reachable state the call empties a registered market as promised
exactly if no order was ever accepted there.
-/
theorem cancelAllOrders_empties_iff (h : Run (Step crypto) .new ops e)
    (hregistered : (e.findMarket marketId).isSome = true)
    (wall : Nat → UInt64) :
    EmptiesMarket crypto e marketId wall ↔
      ∀ order ∈ accepted e.log, order.marketId.value ≠ marketId := by
  have hinv := Step.run_inv h
  constructor
  · intro hempties order hmem hmarket
    have hrun' : Run (Step crypto) .new
        (ops ++ [.cancelAllOrders marketId wall])
        (e.cancelAllOrders marketId wall).1 :=
      h.next ⟨trivial, rfl⟩
    have hanswer := (cancelAllOrders_spec (Step.run_inv hrun').legal
      (by rwa [cancelAllOrders_findMarket]) wall).answer
    rw [(hempties.repeated wall).1, Except.ok.injEq, eq_comm,
      List.length_eq_zero_iff, List.filter_eq_nil_iff] at hanswer
    -- the order is still in the log, so the second call finds it again
    obtain ⟨new, hlog⟩ : e.log <+: (e.cancelAllOrders marketId wall).1.log := by
      obtain ⟨targets, hwrites⟩ := cancelAllOrders_writes e marketId wall
      exact hwrites.log_extends
    refine hanswer order ?_ (by simpa using hmarket)
    rw [← hlog, accepted, List.filterMap_append]
    exact List.mem_append_left _ hmem
  · intro hnone
    have hresting : ∀ order, ¬ RestsIn e marketId order := by
      intro order hrests
      obtain ⟨new, hmem, hmarket⟩ := hrests.accepted hinv
      exact hnone new hmem hmarket
    have hcall := cancelAllOrders_unused hinv.legal hregistered hnone
    refine
      { empty := ?_
        cancels := ⟨[], .nil, ?_, ?_, ?_⟩
        marked := fun order hrests => absurd hrests (hresting order)
        others := ?_
        repeated := ?_
        noFill := fun _ _ _ order hrests => absurd hrests (hresting order) }
    · rw [hcall]
      exact hresting
    · simpa using hresting
    · rw [hcall]
      exact .none rfl rfl
    · rw [hcall]
      rfl
    · intro other _
      rw [hcall]
    · intro wall'
      rw [hcall wall, hcall wall']
      exact ⟨rfl, rfl⟩

end Calls

/-! ## A session that trades after the call -/

namespace Sample

def otherListed : List Op :=
  [.addMarket market, .processOrder ask askEnv,
    .addMarket { market with id := ⟨"ETH-USD"⟩ }]

theorem otherListed_run :
    Run (Step crypto) .new otherListed (after otherListed) :=
  .next (asked_run.mono fun _ _ _ hstep => hstep.1) ⟨trivial, rfl⟩

theorem cancelAllOrders_empties_iff_unused :
    storedOrder (after otherListed).books "BTC-USD" ⟨"ask"⟩ = some askOrder ∧
      EmptiesMarket crypto (after otherListed) "ETH-USD" wall := by
  refine ⟨by decide +kernel, ?_⟩
  exact (cancelAllOrders_empties_iff otherListed_run (by decide +kernel)
    wall).mpr (by decide +kernel)

def forced : List Op :=
  [.addMarket market, .processOrder ask askEnv,
    .cancelAllOrders "BTC-USD" wall]

theorem forced_log : (after forced).log =
    [⟨1, 2000, .orderAccepted askOrder⟩,
      ⟨2, 2000, .orderCancelled ⟨"ask"⟩ ⟨askHash⟩ .adminForce⟩] := by
  decide +kernel

theorem forced_fills :
    ((after (forced ++ [.processOrder bid bidEnv])).log.drop 2).map
        SequencedEvent.event =
      [.orderAccepted
          { bidOrder with createdSequence := 3, lastUpdateSequence := 3 },
        .fill (makeFill bidOrder askOrder 100 4 3 2000)] := by
  decide +kernel

/-- A buy order trades with the order that the call cancelled. -/
theorem forced_order_trades :
    ¬ ∀ (crypto : Crypto) (ops : List Op) (e : Engine),
      Run (Step crypto) .new ops e → ∀ marketId wall,
        (e.findMarket marketId).isSome = true →
          EmptiesMarket crypto e marketId wall := by
  intro h
  have hrun := asked_run.mono fun _ _ _ hstep => hstep.1
  obtain ⟨hregistered, hlive⟩ :
      ((after [.addMarket market, .processOrder ask askEnv]).findMarket
          "BTC-USD").isSome = true ∧
        storedOrder
            (after [.addMarket market, .processOrder ask askEnv]).books
            "BTC-USD" ⟨"ask"⟩ = some askOrder := by
    decide +kernel
  have hempties := h _ _ _ hrun "BTC-USD" wall hregistered
  obtain ⟨book, hbook, hget⟩ := storedOrder_eq_some.mp hlive
  have hrests : RestsIn (after [.addMarket market, .processOrder ask askEnv])
      "BTC-USD" askOrder :=
    ⟨book, .sell, hbook, ((Step.run_inv hrun).sync.valid
      hbook).resting_iff.mpr ⟨hget, rfl, rfl⟩⟩
  have hadmits : (after forced).Admits (.processOrder bid bidEnv) := by
    change ∀ order ∈ accepted (after _).log, order.orderId ≠ ⟨"bid"⟩
    rw [forced_log]
    decide
  have hnext : Run (Step crypto) (after forced) [.processOrder bid bidEnv]
      (after (forced ++ [.processOrder bid bidEnv])) :=
    .next .start ⟨hadmits, rfl⟩
  have hmem : .fill (makeFill bidOrder askOrder 100 4 3 2000) ∈
      ((after (forced ++ [.processOrder bid bidEnv])).log.drop 2).map
        SequencedEvent.event := by
    rw [forced_fills]
    exact .tail _ (.head _)
  obtain ⟨se, hse, hevent⟩ := List.mem_map.mp hmem
  have hlength : (after forced).log.length = 2 := by rw [forced_log]; rfl
  have hlater : se ∈ (after (forced ++ [.processOrder bid bidEnv])).log.drop
      (after forced).log.length := by
    rwa [hlength]
  have hforced : after forced =
      ((after [.addMarket market, .processOrder ask askEnv]).cancelAllOrders
        "BTC-USD" wall).1 := by
    have hops : forced = [.addMarket market, .processOrder ask askEnv] ++
        [.cancelAllOrders "BTC-USD" wall] := rfl
    have hcall : ∀ e : Engine,
        (e.apply crypto (.cancelAllOrders "BTC-USD" wall)).1 =
          (e.cancelAllOrders "BTC-USD" wall).1 := fun _ => rfl
    unfold after
    rw [hops, applyAll_append, hcall]
  rw [hforced] at hnext hlater
  refine hempties.noFill _ _ hnext askOrder hrests se hlater _ hevent ?_
  rw [hevent]
  exact .inr rfl

end Sample

end ClobApi
