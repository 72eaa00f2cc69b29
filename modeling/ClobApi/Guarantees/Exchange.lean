import ClobApi.Engine.Filing
import ClobApi.Engine.Ranking
import ClobApi.Foundation.Exchange
import ClobApi.Guarantees.Allotment
import ClobApi.Guarantees.Priority
import ClobApi.Guarantees.Recovery

/-!
# The engine as an exchange

In every run of completed operations the book of a market is the exchange that
the market's submissions and withdrawals make, and the market's fills are its
trades.  A recovery withdraws the resting orders that the log has closed.
-/

namespace ClobApi

open Foundation

/-! ## Orders as offers -/

def Side.way : Side → Way
  | .buy => .buy
  | .sell => .sell

def Order.offer (order : Order) : Offer OrderId String Nat where
  id := order.orderId
  owner := order.traderId
  way := order.side.way
  price := order.priceTicks.toNat
  lots := order.remainingSizeLots.toNat

def Fill.trade (fill : Fill) : Trade OrderId Nat where
  taker := fill.takerOrderId
  maker := fill.makerOrderId
  price := fill.priceTicks.toNat
  lots := fill.sizeLots.toNat

def OrderBook.Mirrors (book : OrderBook) (x : Exchange OrderId String Nat) :
    Prop :=
  ∀ side : Side, x.queue side.way = (book.ranking side).map Order.offer

section Offers

variable {order order' taker maker : Order} {side : Side}

@[simp] theorem Side.way_opposite (side : Side) :
    side.opposite.way = side.way.opposite := by
  cases side <;> rfl

theorem Side.better_iff (side : Side) (p q : UInt64) :
    side.Better p q ↔ side.way.Better p.toNat q.toNat := by
  cases side <;> exact UInt64.lt_iff_toNat_lt

theorem Order.accepts_iff (taker : Order) (price : UInt64) :
    taker.offer.Accepts price.toNat ↔ taker.Crosses price := by
  unfold Offer.Accepts Order.Crosses
  cases hside : taker.side <;>
    simp [Order.offer, hside, Side.way, Way.opposite, Way.Better,
      UInt64.le_iff_toNat_le]

theorem Order.offer_eq_of_terms (h : order.terms = order'.terms) :
    order.offer =
      { order'.offer with lots := order.remainingSizeLots.toNat } := by
  have hid : order.orderId = order'.orderId := by
    simpa using congrArg Order.orderId h
  have htrader : order.traderId = order'.traderId := by
    simpa using congrArg Order.traderId h
  have hside : order.side = order'.side := by
    simpa using congrArg Order.side h
  have hprice : order.priceTicks = order'.priceTicks := by
    simpa using congrArg Order.priceTicks h
  simp only [Order.offer, hid, htrader, hside, hprice]

theorem map_queueIn (order : Order) (queue : List Order) :
    (order.queueIn queue).map Order.offer =
      order.offer.enqueue (queue.map Order.offer) := by
  unfold Order.queueIn Offer.enqueue
  refine List.map_orderedInsert _ _ _ _ _ (fun a _ => ?_) fun a _ => ?_
  · exact Side.better_iff _ _ _
  · exact Side.better_iff _ _ _

end Offers

/-! ## Submissions -/

section Submit

variable {book : OrderBook} {x : Exchange OrderId String Nat} {taker : Order}
  {seqId : Nat} {nowMs : UInt64} {shares : List Share} {share : Share}

theorem OrderBook.Mirrors.dealt (h : book.Mirrors x) (hvalid : book.Valid)
    (taker : Order) :
    x.dealt taker.offer =
      (taker.allot (book.crossing taker)).map Order.offer := by
  have hqueue := h taker.side.opposite
  rw [Side.way_opposite] at hqueue
  have hcross : (fun maker : Order =>
      decide (taker.offer.Accepts maker.offer.price)) =
        fun maker => decide (taker.Crosses maker.priceTicks) := by
    funext maker
    exact decide_eq_decide.mpr (taker.accepts_iff maker.priceTicks)
  have howner : (fun maker : Order =>
      decide (maker.offer.owner = taker.offer.owner)) =
        fun maker => maker.traderId == taker.traderId := by
    funext maker
    exact (beq_eq_decide _ _).symm
  unfold Exchange.dealt Offer.allot
  change greedy _ _ ((x.queue taker.side.way.opposite).takeWhile _) _ = _
  rw [hqueue, List.takeWhile_map, greedy_map]
  change (greedy _ (fun maker => decide _) ((book.ranking _).takeWhile
    fun maker => decide (taker.offer.Accepts maker.offer.price)) _).map _ = _
  rw [hcross, howner, ← hvalid.crossing_eq_takeWhile]
  rfl

theorem OrderBook.Gives.left (h : book.Gives shares) (hvalid : book.Valid)
    (hshare : share ∈ shares) :
    Portion.left (share.maker.offer, share.2) =
      (if (share.after seqId).isClosed then none
        else some (share.after seqId)).map Order.offer := by
  have hmem : share.maker ∈ shares.map Share.maker :=
    List.mem_map_of_mem hshare
  have hle := h.le share hshare
  have hqty := h.qty_toNat hshare
  have hremaining : (share.after seqId).remainingSizeLots.toNat =
      share.maker.remainingSizeLots.toNat - share.2 := by
    rw [← hqty]
    refine applyFillTo_remaining
      (hvalid.consistent (h.offers.stored _ hmem)).filled_le ?_
    rwa [UInt64.le_iff_toNat_le, hqty]
  have hclosed : (share.after seqId).isClosed = true ↔
      share.2 = share.maker.remainingSizeLots.toNat :=
    h.isClosed_after hvalid hshare
  unfold Portion.left
  by_cases hfull : share.2 = share.maker.remainingSizeLots.toNat
  · rw [if_pos (hclosed.mpr hfull), if_neg (by simp [Order.offer, hfull])]
    rfl
  · rw [if_neg (mt hclosed.mp hfull), if_pos (by
      simp only [Order.offer]
      omega), Option.map_some, Option.some.injEq]
    simp only [Order.offer, hremaining]
    rfl

theorem OrderBook.Gives.leave (h : book.Gives shares) (hvalid : book.Valid)
    (queue : List Order) :
    leave (shares.map fun share => (share.1.offer, share.2))
        (queue.map Order.offer) =
      (leftBehind shares seqId queue).map Order.offer := by
  unfold Foundation.leave OrderBook.leftBehind
  rw [List.map_append, List.map_drop, List.length_map, List.filterMap_map,
    List.map_filterMap]
  congr 1
  exact List.filterMap_congr fun share hshare => h.left hvalid hshare

theorem OrderBook.Gives.trades (h : book.Gives shares) (taker : Order)
    (seqId : Nat) (nowMs : UInt64) :
    (shares.map fun share => (share.1.offer, share.2)).map
        taker.offer.trade =
      (shares.map (Share.fill taker seqId nowMs)).map Fill.trade := by
  rw [List.map_map, List.map_map]
  refine List.map_congr_left fun share hshare => ?_
  simp only [Function.comp, Offer.trade, Fill.trade, Share.fill, makeFill,
    h.qty_toNat hshare]
  rfl

def MatchState.residual (st : MatchState) : Option Order :=
  if !st.taker.isClosed ∧ st.taker.remainingSizeLots > 0 then some st.taker
  else none

theorem deal_rest {st : MatchState} {makers : List Order} (hready : st.Ready)
    (seqId : Nat) (nowMs : UInt64) :
    st.taker.offer.rest ((st.taker.allot makers).map Order.offer) =
      (st.deal seqId nowMs (st.taker.allot makers)).residual.map
        Order.offer := by
  have hafter := takeAll_taker seqId nowMs st makers hready
  have hdeals := deal_deals seqId nowMs st (st.taker.allot makers)
  generalize st.taker.allot makers = out at *
  generalize st.deal seqId nowMs out = result at *
  have hwanted : result.taker.remainingSizeLots.toNat = out.wanted := by
    rw [Order.remainingSizeLots_eq_of_facts hdeals.facts]
    exact hafter.wanted
  have hstatus := hdeals.status
  unfold Offer.rest Allotment.map MatchState.residual
  by_cases hnone : out.wanted = 0
  · have hfull : ¬ result.taker.remainingSizeLots > 0 := by
      rw [gt_iff_lt, UInt64.lt_iff_toNat_lt, hwanted, hnone]
      exact Nat.lt_irrefl 0
    simp [hnone, hfull]
  have hleft : result.taker.remainingSizeLots > 0 := by
    rw [gt_iff_lt, UInt64.lt_iff_toNat_lt, hwanted, UInt64.toNat_zero]
    exact Nat.pos_of_ne_zero hnone
  cases hblocked : out.blocked with
  | true =>
      rw [hblocked, if_pos rfl] at hstatus
      have hclosed : result.taker.isClosed = true := by
        rw [Order.isClosed, hstatus]
        rfl
      simp [hclosed]
  | false =>
      rw [hblocked, if_neg (by simp)] at hstatus
      have hopen : result.taker.isClosed = false := by
        rw [Order.isClosed, hstatus]
        refine hafter.ready.live ?_
        rw [Ne, ← UInt64.toNat_inj, hafter.wanted]
        exact hnone
      rw [if_neg (by simp [hnone]), if_pos (by simp [hopen, hleft])]
      rw [Option.map_some, Option.some.injEq, Order.offer_eq_of_terms
        ((Order.terms_eq_of_facts hdeals.facts).trans hafter.terms), hwanted]

structure MatchState.Latest (st : MatchState) : Prop where
  unstored : st.book.get st.taker.orderId = none
  later : ∀ id older, st.book.get id = some older →
    older.createdSequence < st.taker.createdSequence

theorem MatchState.Latest.ranking_residualBook {st : MatchState}
    (h : st.Latest) (hvalid : st.book.Valid) (hresidual : st.residualBook.Valid)
    (side : Side) :
    st.residualBook.ranking side =
      match st.residual with
      | none => st.book.ranking side
      | some order =>
          if side = order.side then order.queueIn (st.book.ranking side)
          else st.book.ranking side := by
  unfold MatchState.residualBook MatchState.residual at *
  split
  · next hrests =>
      rw [if_pos hrests] at hresidual
      exact hvalid.ranking_insert hresidual (by simpa using hrests.1) h.unstored
        h.later side
  · rfl

theorem MatchState.eq_of_residual {st : MatchState} {order : Order}
    (h : st.residual = some order) : order = st.taker := by
  unfold MatchState.residual at h
  split at h
  · exact (Option.some.inj h).symm
  · cases h

theorem OrderBook.Valid.served (hvalid : book.Valid) (taker : Order) :
    (taker.allot (book.crossing taker)).shares.map Share.maker <+:
      book.ranking taker.side.opposite := by
  have hserved := allot_prefix taker (book.crossing taker)
  refine hserved.trans ?_
  rw [hvalid.crossing_eq_takeWhile]
  exact List.takeWhile_prefix _

theorem matched_book (hvalid : book.Valid)
    (hready : (MatchState.mk book taker []).Ready) (seqId : Nat)
    (nowMs : UInt64) :
    (matchOrder book taker seqId nowMs).book =
      ((MatchState.mk book taker []).takeAll seqId nowMs
        (taker.allot (book.crossing taker)).shares).book := by
  rw [matchOrder_eq_deal hvalid hready, deal_book]

theorem matched_valid (hvalid : book.Valid)
    (hready : (MatchState.mk book taker []).Ready) (seqId : Nat)
    (nowMs : UInt64) :
    (matchOrder book taker seqId nowMs).book.Valid := by
  rw [matched_book hvalid hready]
  exact (hvalid.gives taker).takeAll_valid hvalid

section Matched

variable (hvalid : book.Valid) (hready : (MatchState.mk book taker []).Ready)
  (hlatest : (matchOrder book taker seqId nowMs).Latest)
  (hresidual : (matchOrder book taker seqId nowMs).residualBook.Valid)

include hvalid hready hlatest hresidual

theorem ranking_matched_own :
    (matchOrder book taker seqId nowMs).residualBook.ranking taker.side =
      match (matchOrder book taker seqId nowMs).residual with
      | none => book.ranking taker.side
      | some order => order.queueIn (book.ranking taker.side) := by
  have hside : (matchOrder book taker seqId nowMs).taker.side = taker.side := by
    simpa using congrArg Order.side (matchOrder_terms book taker seqId nowMs)
  have hbook := matched_valid hvalid hready seqId nowMs
  rw [hlatest.ranking_residualBook hbook hresidual,
    (matched_book hvalid hready seqId nowMs),
    hvalid.ranking_takeAll_of_ne ((matched_book hvalid hready seqId nowMs) ▸
      hbook) (hvalid.served taker) (by cases taker.side <;> nofun)]
  cases hsome : (matchOrder book taker seqId nowMs).residual with
  | none => rfl
  | some order =>
      obtain rfl := MatchState.eq_of_residual hsome
      exact if_pos hside.symm

theorem ranking_matched_opposite :
    (matchOrder book taker seqId nowMs).residualBook.ranking
        taker.side.opposite =
      OrderBook.leftBehind (taker.allot (book.crossing taker)).shares seqId
        (book.ranking taker.side.opposite) := by
  have hside : (matchOrder book taker seqId nowMs).taker.side = taker.side := by
    simpa using congrArg Order.side (matchOrder_terms book taker seqId nowMs)
  have hbook := matched_valid hvalid hready seqId nowMs
  rw [hlatest.ranking_residualBook hbook hresidual,
    (matched_book hvalid hready seqId nowMs),
    hvalid.ranking_takeAll ((matched_book hvalid hready seqId nowMs) ▸ hbook)
      (hvalid.served taker)]
  cases hsome : (matchOrder book taker seqId nowMs).residual with
  | none => rfl
  | some order =>
      obtain rfl := MatchState.eq_of_residual hsome
      refine if_neg ?_
      rw [hside]
      cases taker.side <;> nofun

theorem OrderBook.Mirrors.submit (h : book.Mirrors x) :
    (matchOrder book taker seqId nowMs).residualBook.Mirrors
      (x.submit taker.offer) := by
  intro side
  have hdealt := h.dealt hvalid taker
  by_cases hside : side = taker.side
  · subst hside
    have hrest : taker.offer.rest (x.dealt taker.offer) =
        (matchOrder book taker seqId nowMs).residual.map Order.offer := by
      rw [hdealt, matchOrder_eq_deal hvalid hready]
      exact deal_rest hready seqId nowMs
    refine (x.afterSubmit_own taker.offer).trans ?_
    rw [hrest, ranking_matched_own hvalid hready hlatest hresidual]
    cases (matchOrder book taker seqId nowMs).residual with
    | none => exact h taker.side
    | some order =>
        rw [map_queueIn, ← h taker.side]
        rfl
  · have hopposite : side = taker.side.opposite := by
      cases side <;> cases hway : taker.side <;> simp_all [Side.opposite]
    subst hopposite
    have hqueue := h taker.side.opposite
    rw [Side.way_opposite] at hqueue ⊢
    refine (x.afterSubmit_opposite taker.offer).trans ?_
    rw [hdealt, ranking_matched_opposite hvalid hready hlatest hresidual]
    change leave _ (x.queue taker.side.way.opposite) = _
    rw [hqueue]
    exact (hvalid.gives taker).leave hvalid _

end Matched

theorem OrderBook.Mirrors.trades (h : book.Mirrors x) (hvalid : book.Valid)
    (hready : (MatchState.mk book taker []).Ready) (seqId : Nat)
    (nowMs : UInt64) :
    x.trades (.submit taker.offer) =
      (matchOrder book taker seqId nowMs).fills.map Fill.trade := by
  have hdeals := deal_deals seqId nowMs ⟨book, taker, []⟩
    (taker.allot (book.crossing taker))
  change (x.dealt taker.offer).shares.map taker.offer.trade = _
  rw [h.dealt hvalid, matchOrder_eq_deal hvalid hready, hdeals.fills,
    takeAll_fills]
  exact (hvalid.gives taker).trades taker seqId nowMs

end Submit

/-! ## Withdrawals and recoveries -/

section Withdraw

variable {book book' : OrderBook} {x : Exchange OrderId String Nat}

theorem OrderBook.Mirrors.withdraw (h : book.Mirrors x) (hvalid : book.Valid)
    {id : OrderId} {order : Order} (hget : book.get id = some order)
    (hopen : order.isClosed = false) :
    (book.cancel id).1.Mirrors (x.withdraw id) := by
  intro side
  rw [hvalid.ranking_cancel hget hopen]
  change (x.queue side.way).filter _ = _
  rw [h side, List.filter_map]
  rfl

/-- The second book holds, up to bookkeeping, what `keeps` selects of the
first. -/
structure OrderBook.Retains (book : OrderBook) (keeps : OrderId → Bool)
    (book' : OrderBook) : Prop where
  kept : ∀ {id order}, book.get id = some order → order.isClosed = false →
    keeps id = true →
      ∃ order', book'.get id = some order' ∧ order'.core = order.core
  new : ∀ {id order'}, book'.get id = some order' → order'.isClosed = false →
    keeps id = true ∧
      ∃ order, book.get id = some order ∧ order'.core = order.core

theorem map_core_eq {side : Side} {l l' : List Order}
    (hl : l.Pairwise (Order.Precedes side))
    (hl' : l'.Pairwise (Order.Precedes side))
    (hmem : ∀ core, core ∈ l.map Order.core ↔ core ∈ l'.map Order.core) :
    l.map Order.core = l'.map Order.core :=
  eq_of_pairwise_precedes (List.pairwise_map.mpr hl)
    (List.pairwise_map.mpr hl') hmem

theorem OrderBook.Valid.ranking_retains (hvalid : book.Valid)
    (hvalid' : book'.Valid) {keeps : OrderId → Bool}
    (h : book.Retains keeps book') (side : Side) :
    (book'.ranking side).map Order.core =
      ((book.ranking side).filter fun order =>
        keeps order.orderId).map Order.core := by
  refine map_core_eq (hvalid'.ranking_sorted side)
    ((hvalid.ranking_sorted side).filter _) fun core => ?_
  simp only [List.mem_map, List.mem_filter, hvalid.mem_ranking,
    hvalid'.mem_ranking, hvalid.resting_iff, hvalid'.resting_iff]
  have hside : ∀ {order order' : Order}, order'.core = order.core →
      order'.orderId = order.orderId ∧ order'.side = order.side ∧
        order'.isClosed = order.isClosed := by
    intro order order' hcore
    have hterms := Order.terms_eq_of_core hcore
    exact ⟨by simpa using congrArg Order.orderId hterms,
      by simpa using congrArg Order.side hterms,
      Order.isClosed_eq_of_core hcore⟩
  constructor
  · rintro ⟨order', ⟨hget', rfl, hopen'⟩, rfl⟩
    obtain ⟨hkeeps, order, hget, hcore⟩ := h.new hget' hopen'
    obtain ⟨hid, hsame, hclosed⟩ := hside hcore
    exact ⟨order, ⟨⟨hid ▸ hget, hsame.symm, hclosed ▸ hopen'⟩, hid ▸ hkeeps⟩,
      hcore.symm⟩
  · rintro ⟨order, ⟨⟨hget, rfl, hopen⟩, hkeeps⟩, rfl⟩
    obtain ⟨order', hget', hcore⟩ := h.kept hget hopen hkeeps
    obtain ⟨hid, hsame, hclosed⟩ := hside hcore
    exact ⟨order', ⟨hid ▸ hget', hsame, hclosed.trans hopen⟩, hcore⟩

def OrderBook.dropped (book : OrderBook) (keeps : OrderId → Bool) :
    List OrderId :=
  ((book.ranking .buy ++ book.ranking .sell).map Order.orderId).filter
    fun id => !keeps id

theorem OrderBook.Mirrors.retains (h : book.Mirrors x) (hvalid : book.Valid)
    (hvalid' : book'.Valid) {keeps : OrderId → Bool}
    (hretains : book.Retains keeps book') :
    book'.Mirrors
      (((book.dropped keeps).map .withdraw).foldl Exchange.next x) := by
  intro side
  have hoffers : ∀ orders : List Order,
      (orders.map Order.core).map Order.offer = orders.map Order.offer := by
    intro orders
    rw [List.map_map]
    exact List.map_congr_left fun order _ => rfl
  have hcores := congrArg (List.map Order.offer)
    (hvalid.ranking_retains hvalid' hretains side)
  rw [hoffers, hoffers] at hcores
  rw [hcores, Exchange.queue_withdrawAll, h side, List.filter_map]
  congr 1
  refine List.filter_congr fun order hmem => ?_
  have hside : order ∈ book.ranking .buy ++ book.ranking .sell := by
    cases side with
    | buy => exact List.mem_append_left _ hmem
    | sell => exact List.mem_append_right _ hmem
  have hid : order.orderId ∈
      (book.ranking .buy ++ book.ranking .sell).map Order.orderId :=
    List.mem_map_of_mem hside
  simp only [Function.comp, Order.offer, dropped, List.mem_filter, hid,
    true_and, Bool.not_eq_true', Bool.not_eq_false, Bool.decide_eq_true]

end Withdraw

/-! ## Operations as instructions -/

namespace Engine

/-- What an operation asks of the exchange of a market. -/
def instructions (crypto : Crypto) (marketId : String) (e : Engine) (op : Op) :
    List (Instruction OrderId String Nat) :=
  match op with
  | .processOrder .. =>
      match e.acceptance crypto op with
      | some (_, order) =>
          if order.marketId.value = marketId then [.submit order.offer] else []
      | none => []
  | .processCancel orderId traderId wall =>
      match (e.processCancel orderId traderId wall).2 with
      | .ok result =>
          if result.wasAlreadyClosed = false ∧
              e.orderMarketIndex.get? orderId = some marketId then
            [.withdraw orderId]
          else []
      | _ => []
  | .restoreFromEvents _ events =>
      if events.isEmpty then []
      else ((bookAt e.books marketId).dropped (openInLog events)).map .withdraw
  | _ => []

def allInstructions (crypto : Crypto) (marketId : String) :
    Engine → List Op → List (Instruction OrderId String Nat) :=
  emissions (fun e op => (e.apply crypto op).1) (instructions crypto marketId)

end Engine

/-- The exchange that a run makes of a market. -/
def exchangeOf (crypto : Crypto) (marketId : String) (ops : List Op) :
    Exchange OrderId String Nat :=
  (Engine.new.allInstructions crypto marketId ops).foldl Exchange.next .empty

def tradesOf (crypto : Crypto) (marketId : String) (ops : List Op) :
    List (Trade OrderId Nat) :=
  Exchange.empty.allTrades (Engine.new.allInstructions crypto marketId ops)

/-- The step of the engine does to the market what its instructions ask for. -/
structure Refines (crypto : Crypto) (marketId : String) (e : Engine) (op : Op)
    (x : Exchange OrderId String Nat) : Prop where
  book : (bookAt (e.apply crypto op).1.books marketId).Mirrors
    ((e.instructions crypto marketId op).foldl Exchange.next x)
  fills : (fillsOf marketId (e.apply crypto op).1.log).map Fill.trade =
    (fillsOf marketId e.log).map Fill.trade ++
      x.allTrades (e.instructions crypto marketId op)

section Steps

variable {basic : Prop} {crypto : Crypto} {marketId : String} {e : Engine}
  {x : Exchange OrderId String Nat} {op : Op}

theorem Quietly.fillsOf {e' : Engine} (h : Quietly e e') (marketId : String) :
    fillsOf marketId e'.log = fillsOf marketId e.log := by
  unfold ClobApi.fillsOf
  rw [h.fillsIn]

theorem Refines.idle (h : (bookAt e.books marketId).Mirrors x)
    (hidle : e.instructions crypto marketId op = [])
    (hbook : bookAt (e.apply crypto op).1.books marketId =
      bookAt e.books marketId)
    (hfills : fillsOf marketId (e.apply crypto op).1.log =
      fillsOf marketId e.log) : Refines crypto marketId e op x where
  book := by rwa [hidle, hbook]
  fills := by
    rw [hidle, hfills]
    exact (List.append_nil _).symm

theorem refines_processCancel (hinv : e.Inv True basic noOrder)
    (h : (bookAt e.books marketId).Mirrors x) (orderId : OrderId)
    (traderId : String) (wall : Nat → UInt64) :
    Refines crypto marketId e (.processCancel orderId traderId wall) x := by
  have hquiet : Quietly e
      (e.apply crypto (.processCancel orderId traderId wall)).1 :=
    apply_quietly trivial (by simp)
  have hfills := hquiet.fillsOf marketId
  obtain ⟨hsame, hclosed⟩ | ⟨marketId', book, order, hcancels⟩ :=
    Engine.processCancel_cases e orderId traderId wall
  · refine .idle h ?_ (by rw [Engine.apply, hsame]) hfills
    simp only [Engine.instructions]
    split
    · next result hok => simp [hclosed result hok]
    · rfl
  have hinstructions : e.instructions crypto marketId
      (.processCancel orderId traderId wall) =
        if marketId' = marketId then [.withdraw orderId] else [] := by
    simp only [Engine.instructions, hcancels.processCancel_eq, hcancels.index,
      Option.some.injEq, true_and]
  have hbooks : bookAt (e.apply crypto
      (.processCancel orderId traderId wall)).1.books marketId =
        if marketId = marketId' then (book.cancel orderId).1
        else bookAt e.books marketId := by
    simp only [Engine.apply, hcancels.processCancel_eq]
    exact bookAt_insert e.books _ marketId' _
  by_cases hmarket : marketId' = marketId
  · subst hmarket
    rw [if_pos rfl] at hinstructions hbooks
    have hbook : bookAt e.books marketId' = book := by
      simp [bookAt, hcancels.listed]
    rw [hbook] at h
    refine ⟨?_, ?_⟩
    · rw [hinstructions, hbooks]
      exact h.withdraw (hinv.sync.valid hcancels.listed) hcancels.stored
        hcancels.active
    · rw [hinstructions, hfills]
      exact (List.append_nil _).symm
  · rw [if_neg hmarket] at hinstructions
    rw [if_neg (Ne.symm hmarket)] at hbooks
    exact .idle h hinstructions hbooks hfills

/-! ### Submissions -/

theorem Matching.latest {completed : Prop} {st st' : MatchState} {seqId : Nat}
    (h : Matching completed basic e st) (hend : MatchEnd seqId st st') :
    st'.Latest := by
  obtain ⟨hbook, -, hterms⟩ := hend.same
  have hid : st'.taker.orderId = st.taker.orderId := by
    simpa using congrArg Order.orderId hterms
  have hcreated : st'.taker.createdSequence = st.taker.createdSequence := by
    simpa using congrArg Order.createdSequence hterms
  have hunstored := h.pending.unstored st.taker.marketId.value
  refine ⟨?_, fun id live hget => ?_⟩
  · rw [hbook, hid]
    simpa [storedOrder, h.book] using hunstored
  · rw [hbook] at hget
    have hstored := storedOrder_eq_some.mpr ⟨_, h.book, hget⟩
    obtain ⟨older, holder, hmatches⟩ := h.inv.sync.stored hstored
    have hsame : older.createdSequence = live.createdSequence := by
      simpa using congrArg Order.createdSequence
        (Order.terms_eq_of_facts hmatches.facts)
    rw [← hsame, hcreated]
    refine h.pending.last holder ?_
    rintro rfl
    rw [hunstored] at hstored
    cases hstored

theorem filter_isIn {fills : List Fill} {market : MarketId}
    (h : ∀ fill ∈ fills, fill.marketId = market) (marketId : String) :
    fills.filter (Fill.isIn marketId) =
      if market.value = marketId then fills else [] := by
  split
  · next hmarket =>
      refine List.filter_eq_self.mpr fun fill hfill => ?_
      simp [Fill.isIn, h fill hfill, hmarket]
  · next hmarket =>
      refine List.filter_eq_nil_iff.mpr fun fill hfill => ?_
      simp [Fill.isIn, h fill hfill, hmarket]

theorem refines_submits (hinv : e.Inv True basic noOrder)
    (h : (bookAt e.books marketId).Mirrors x) {signed : SignedOrder}
    {env : CallEnv} (hadmits : e.Admits (.processOrder signed env))
    (hcalm : (e.apply crypto (.processOrder signed env)).2.panicked = false)
    (hsubmits : Engine.Submits crypto e signed env) :
    Refines crypto marketId e (.processOrder signed env) x := by
  have hafter := apply_inv hinv hadmits (fun _ => hcalm) fun _ => rfl
  cases hbook : e.books.get? signed.marketId.value with
  | none =>
      simp [Engine.apply, hsubmits.panics hbook, Reply.panicked] at hcalm
  | some book =>
      obtain ⟨e', hdone, hexecuted⟩ := hsubmits.completes hbook rfl rfl
      have hstart := matching_start hinv hsubmits hadmits hbook
      obtain ⟨mid, hrun, hend⟩ :=
        matchOrder_run hstart.valid e.sequencer.peekNextSeqId env.nowMs
      have hlatest := (hstart.run hrun).latest hend
      have hready : (MatchState.mk book (Engine.buildOrder crypto signed env
          e.sequencer.peekNextSeqId) []).Ready :=
        ⟨hstart.valid.taker.filled_le, fun _ => rfl⟩
      have hvalid := hinv.sync.valid hbook
      have hmade := filter_isIn (hsubmits.fills_market hinv hadmits hbook)
        marketId
      have happly : (e.apply crypto (.processOrder signed env)).1 = e' := by
        simp only [Engine.apply, hdone]
      have hfills := hexecuted.writes.fillsOf marketId
      rw [List.filterMap_cons, filterMap_fill_events] at hfills
      have hfills := hfills.trans (congrArg _ hmade)
      have hinstructions : e.instructions crypto marketId
          (.processOrder signed env) =
            if signed.marketId.value = marketId then
              [.submit (Engine.buildOrder crypto signed env
                e.sequencer.peekNextSeqId).offer]
            else [] := by
        simp only [Engine.instructions, Engine.acceptance_of_submits hsubmits]
        rfl
      rw [happly] at hafter
      by_cases hmarket : signed.marketId.value = marketId
      · subst hmarket
        have hold : bookAt e.books signed.marketId.value = book := by
          simp [bookAt, hbook]
        have hnew := hexecuted.books signed.marketId.value
        rw [if_pos rfl] at hnew
        rw [hold] at h
        rw [if_pos rfl] at hinstructions hfills
        refine ⟨?_, ?_⟩
        · rw [hinstructions, happly, bookAt, hnew]
          exact h.submit hvalid hready hlatest (hafter.sync.valid hnew)
        · have htrades := h.trades hvalid hready e.sequencer.peekNextSeqId
            env.nowMs
          rw [hinstructions, happly, hfills, List.map_append]
          refine congrArg _ (htrades.symm.trans ?_)
          exact (List.append_nil _).symm
      · rw [if_neg hmarket] at hinstructions hfills
        have hnew := hexecuted.books marketId
        rw [if_neg (Ne.symm hmarket)] at hnew
        refine .idle h hinstructions (by rw [happly, bookAt, hnew, bookAt]) ?_
        rw [happly, hfills]
        exact List.append_nil _

theorem refines_processOrder (hinv : e.Inv True basic noOrder)
    (h : (bookAt e.books marketId).Mirrors x) {signed : SignedOrder}
    {env : CallEnv} (hadmits : e.Admits (.processOrder signed env))
    (hcalm : (e.apply crypto (.processOrder signed env)).2.panicked = false) :
    Refines crypto marketId e (.processOrder signed env) x := by
  by_cases hsubmits : Engine.Submits crypto e signed env
  · exact refines_submits hinv h hadmits hcalm hsubmits
  · have hsame : (e.apply crypto (.processOrder signed env)).1 = e :=
      (Engine.processOrder_rejects hsubmits).1
    refine .idle h ?_ (by rw [hsame]) (by rw [hsame])
    simp only [Engine.instructions, Engine.acceptance_of_not_submits hsubmits]

/-! ### Recovery -/

theorem retains_rebuilt (hinv : e.Inv True basic noOrder)
    {orders : HashMap OrderId Order}
    (horders : ∀ id, orders.get? id = orderInLog e.log id)
    (shuffle : Shuffle Order) (marketId : String) :
    (bookAt e.books marketId).Retains (openInLog e.log)
      (bookAt (Replay.buildBooks shuffle orders) marketId) := by
  have hrebuilt := (buildBooks_book hinv.legal horders shuffle marketId).2
  refine ⟨fun {id live} hget hopen hkeeps => ?_,
    fun {id rebuilt} hget hopen => ?_⟩
  · rw [get_bookAt] at hget
    obtain ⟨logged, hview, hmatches⟩ := hinv.sync.stored hget
    have hlogged : logged.isClosed = false := by
      simpa [openInLog, hview] using hkeeps
    obtain ⟨live', hlive, hcore⟩ :=
      hinv.sync.covered trivial hview hlogged not_false
    rw [hmatches.logged_market, hget] at hlive
    obtain rfl := Option.some.inj hlive
    exact ⟨logged, (hrebuilt id logged).mpr
      ⟨hview, hlogged, hmatches.logged_market⟩, hcore.symm⟩
  · obtain ⟨hview, hlogged, rfl⟩ := (hrebuilt id rebuilt).mp hget
    obtain ⟨live, hlive, hcore⟩ :=
      hinv.sync.covered trivial hview hlogged not_false
    refine ⟨by simp [openInLog, hview, hlogged], live, ?_, hcore.symm⟩
    rwa [get_bookAt]

theorem refines_restore (hinv : e.Inv True basic noOrder)
    (h : (bookAt e.books marketId).Mirrors x) (shuffle : Shuffle Order) :
    Refines crypto marketId e (.restoreFromEvents shuffle e.log) x := by
  have hquiet : Quietly e
      (e.apply crypto (.restoreFromEvents shuffle e.log)).1 :=
    apply_quietly rfl (by simp)
  have hfills := hquiet.fillsOf marketId
  by_cases hempty : e.log = []
  · refine .idle h ?_ ?_ hfills
    · simp [Engine.instructions, hempty]
    · simp [Engine.apply, Engine.restoreFromEvents, hempty]
  obtain ⟨orders, horders, hreplay⟩ := hinv.legal.replay_ok shuffle
  have hbooks : (e.apply crypto (.restoreFromEvents shuffle e.log)).1.books =
      Replay.buildBooks shuffle orders := by
    simp [Engine.apply, Engine.restoreFromEvents, hempty, hreplay]
  have hinstructions : e.instructions crypto marketId
      (.restoreFromEvents shuffle e.log) =
        ((bookAt e.books marketId).dropped (openInLog e.log)).map
          .withdraw := by
    simp [Engine.instructions, hempty]
  refine ⟨?_, ?_⟩
  · rw [hinstructions, hbooks]
    exact h.retains (hinv.bookAt_valid marketId)
      (buildBooks_book hinv.legal horders shuffle marketId).1
      (retains_rebuilt hinv horders shuffle marketId)
  · rw [hinstructions, hfills, Exchange.allTrades_withdraw, List.append_nil]

theorem refines_apply (hinv : e.Inv True basic noOrder)
    (h : (bookAt e.books marketId).Mirrors x) (hadmits : e.Admits op)
    (hcalm : (e.apply crypto op).2.panicked = false) :
    Refines crypto marketId e op x := by
  have hquiet : (∀ signed env, op ≠ .processOrder signed env) →
      Quietly e (e.apply crypto op).1 :=
    apply_quietly hadmits
  have hfills := fun hother => (hquiet hother).fillsOf marketId
  cases op with
  | addMarket config =>
      exact .idle h rfl (bookAt_addMarket e config marketId) rfl
  | processOrder signed env => exact refines_processOrder hinv h hadmits hcalm
  | processCancel orderId traderId wall =>
      exact refines_processCancel hinv h orderId traderId wall
  | pauseMarket marketId' triggeredBy wall =>
      exact .idle h rfl (bookAt_switchMarket e marketId' _ _ _ wall _)
        (hfills (by simp))
  | resumeMarket marketId' triggeredBy wall =>
      exact .idle h rfl (bookAt_switchMarket e marketId' _ _ _ wall _)
        (hfills (by simp))
  | cancelAllOrders marketId' wall =>
      refine .idle h rfl ?_ (hfills (by simp))
      simp only [Engine.apply, cancelAllOrders_books]
  | restoreFromEvents shuffle events =>
      obtain rfl : events = e.log := hadmits
      exact refines_restore hinv h shuffle

end Steps

theorem allInstructions_append {crypto : Crypto} {ops : List Op} {e : Engine}
    (h : Run (Step crypto) .new ops e) {marketId : String} {op : Op} :
    Engine.new.allInstructions crypto marketId (ops ++ [op]) =
      Engine.new.allInstructions crypto marketId ops ++
        e.instructions crypto marketId op := by
  rw [Step.run_applyAll h]
  exact emissions_append _ _ _ ops op

theorem OrderBook.new_mirrors : OrderBook.new.Mirrors .empty := by
  intro side
  cases side <;> rfl

theorem CompletedStep.run_refines {crypto : Crypto} {ops : List Op}
    {e : Engine} (h : Run (CompletedStep crypto) .new ops e)
    (marketId : String) :
    (bookAt e.books marketId).Mirrors (exchangeOf crypto marketId ops) ∧
      (fillsOf marketId e.log).map Fill.trade =
        tradesOf crypto marketId ops := by
  induction h with
  | start => exact ⟨OrderBook.new_mirrors, rfl⟩
  | @next ops e op e' hrun hstep ih =>
      have hinv := CompletedStep.run_inv hrun
      obtain ⟨⟨hadmits, rfl⟩, hcalm⟩ := hstep
      have hrefines := refines_apply hinv ih.1 hadmits hcalm
      rw [exchangeOf, tradesOf,
        allInstructions_append (hrun.mono fun _ _ _ hstep => hstep.1),
        List.foldl_append, Exchange.allTrades_append]
      exact ⟨hrefines.book, hrefines.fills.trans (by rw [ih.2]; rfl)⟩

/--
In every run of completed operations each side of a market's book is a queue of
the exchange that the market's submissions and withdrawals make, and the fills
of the market are the trades of that exchange.
-/
theorem engine_refines_exchange {crypto : Crypto} {ops : List Op} {e : Engine}
    (h : Run (CompletedStep crypto) .new ops e) (marketId : String) :
    (∀ side : Side, ((bookAt e.books marketId).ranking side).map Order.offer =
        (exchangeOf crypto marketId ops).queue side.way) ∧
      (fillsOf marketId e.log).map Fill.trade =
        tradesOf crypto marketId ops := by
  obtain ⟨hmirrors, htrades⟩ := CompletedStep.run_refines h marketId
  exact ⟨fun side => (hmirrors side).symm, htrades⟩

theorem engine_refines_exchange_traded :
    tradesOf Sample.crypto "BTC-USD" Sample.traded =
      [⟨⟨"bid"⟩, ⟨"ask"⟩, 100, 4⟩] := by
  rw [← (engine_refines_exchange (BasicStep.run_completed Sample.traded_run)
    "BTC-USD").2, Sample.traded_log.1]
  rfl

/-! ## Conservation of lots -/

/-- The lots that a run takes out of a market without a trade. -/
def withdrawnFrom (crypto : Crypto) (marketId : String) (ops : List Op) : Nat :=
  Exchange.empty.allWithdrawn (Engine.new.allInstructions crypto marketId ops)

def lotsAccepted (marketId : String) (log : List SequencedEvent) : Nat :=
  (((accepted log).filter fun order => order.marketId.value = marketId).map
    fun order => order.origSizeLots.toNat).sum

def lotsFilled (marketId : String) (log : List SequencedEvent) : Nat :=
  ((fillsOf marketId log).map fun fill => fill.sizeLots.toNat).sum

def OrderBook.lotsResting (book : OrderBook) : Nat :=
  ((book.ranking .buy).map fun order => order.remainingSizeLots.toNat).sum +
    ((book.ranking .sell).map fun order => order.remainingSizeLots.toNat).sum

section Conservation

variable {crypto : Crypto} {marketId : String} {e : Engine} {op : Op}

theorem OrderBook.Mirrors.lots {book : OrderBook}
    {x : Exchange OrderId String Nat} (h : book.Mirrors x) :
    x.lots = book.lotsResting := by
  have hbids := h .buy
  have hasks := h .sell
  simp only [Side.way] at hbids hasks
  simp only [Exchange.lots, hbids, hasks, totalLots, List.map_map]
  rfl

theorem submitted_instructions (hadmits : e.Admits op) :
    lotsAccepted marketId (e.apply crypto op).1.log =
      lotsAccepted marketId e.log +
        ((e.instructions crypto marketId op).map
          Instruction.submitted).sum := by
  have hwithdraw : ∀ ids : List OrderId,
      ((ids.map (Instruction.withdraw (ω := String) (π := Nat))).map
        Instruction.submitted).sum = 0 := by
    intro ids
    induction ids with
    | nil => rfl
    | cons id ids ih => simpa [Instruction.submitted] using ih
  have haccepted : accepted (e.apply crypto op).1.log = _ :=
    Engine.accepted_apply hadmits
  unfold lotsAccepted
  rw [haccepted, List.filter_append, List.map_append, List.sum_append]
  congr 1
  cases op with
  | processOrder signed env =>
      by_cases hsubmits : Engine.Submits crypto e signed env
      · simp only [Engine.instructions, Engine.acceptance_of_submits hsubmits]
        by_cases hmarket : signed.marketId.value = marketId
        · simp [hmarket, Instruction.submitted, Order.offer,
            Order.remainingSizeLots, Engine.buildOrder]
        · simp [hmarket, Engine.buildOrder]
      · simp [Engine.instructions, Engine.acceptance_of_not_submits hsubmits]
  | processCancel orderId traderId wall =>
      simp only [Engine.instructions]
      split
      · split
        · exact (hwithdraw [orderId]).symm
        · rfl
      · rfl
  | restoreFromEvents shuffle events =>
      simp only [Engine.instructions]
      split
      · rfl
      · exact (hwithdraw _).symm
  | _ => rfl

theorem lotsAccepted_eq {ops : List Op}
    (h : Run (Step crypto) .new ops e) (marketId : String) :
    lotsAccepted marketId e.log =
      ((Engine.new.allInstructions crypto marketId ops).map
        Instruction.submitted).sum := by
  induction h with
  | start => rfl
  | @next ops e op e' hrun hstep ih =>
      obtain ⟨hadmits, rfl⟩ := hstep
      rw [submitted_instructions hadmits, ih, allInstructions_append hrun,
        List.map_append, List.sum_append]

/--
In every run of completed operations the lots accepted in a market are the lots
that rest in its book, twice the lots traded, and the lots withdrawn.
-/
theorem lots_conserved {ops : List Op}
    (h : Run (CompletedStep crypto) .new ops e) (marketId : String) :
    (bookAt e.books marketId).lotsResting + 2 * lotsFilled marketId e.log +
        withdrawnFrom crypto marketId ops =
      lotsAccepted marketId e.log := by
  obtain ⟨hmirrors, htrades⟩ := CompletedStep.run_refines h marketId
  have hconserves := Exchange.empty.conserves
    (Engine.new.allInstructions crypto marketId ops)
  have hfilled : lotsFilled marketId e.log =
      ((tradesOf crypto marketId ops).map Trade.lots).sum := by
    rw [← htrades, List.map_map]
    rfl
  rw [lotsAccepted_eq (h.mono fun _ _ _ hstep => hstep.1), hfilled,
    ← hmirrors.lots]
  exact hconserves.trans (Nat.zero_add _)

theorem lots_conserved_traded :
    (bookAt (Sample.after Sample.traded).books "BTC-USD").lotsResting +
      withdrawnFrom Sample.crypto "BTC-USD" Sample.traded = 6 := by
  have h := lots_conserved (BasicStep.run_completed Sample.traded_run) "BTC-USD"
  have hfilled : lotsFilled "BTC-USD" (Sample.after Sample.traded).log = 4 := by
    rw [Sample.traded_log.1]
    decide
  have haccepted :
      lotsAccepted "BTC-USD" (Sample.after Sample.traded).log = 14 := by
    rw [Sample.traded_log.1]
    decide
  omega

end Conservation

end ClobApi
