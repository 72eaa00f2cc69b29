import ClobApi.Engine.BookInvariant
import Mathlib.Logic.Relation

/-!
# Matching as a run of single fills

`FillStep` fills the taker once against the first resting order of the other
side.  The two nested loops, which work on copies of the prices and of the
queues, perform a run of such steps and stop only when the taker is full, when
no resting order crosses it any more, or when the first order that crosses it
belongs to the taker's own trader.
-/

namespace ClobApi

open Foundation

def Order.Crosses (taker : Order) (price : UInt64) : Prop :=
  match taker.side with
  | .buy => price ≤ taker.priceTicks
  | .sell => taker.priceTicks ≤ price

instance (taker : Order) : DecidablePred taker.Crosses := fun price => by
  unfold Order.Crosses
  cases taker.side <;> exact inferInstance

/-- What holds of the book and the taker between two fills. -/
structure MatchState.Valid (st : MatchState) : Prop where
  book : st.book.Valid
  taker : st.taker.Consistent
  closed : st.taker.isClosed = true → st.taker.remainingSizeLots = 0
  uncancelled : st.taker.status ≠ .cancelledStp

def MatchState.fillQty (st : MatchState) (maker : Order) : UInt64 :=
  min st.taker.remainingSizeLots maker.remainingSizeLots

def MatchState.fillAgainst (st : MatchState) (maker : Order) (seqId : Nat)
    (nowMs : UInt64) : MatchState where
  book := fillMaker st.book maker.orderId (st.fillQty maker) seqId
  taker := applyFillTo st.taker (st.fillQty maker) seqId
  fills := st.fills ++
    [makeFill st.taker maker maker.priceTicks (st.fillQty maker) seqId nowMs]

structure MatchState.Meets (st : MatchState) (maker : Order) : Prop where
  first : st.book.First st.taker.side.opposite maker
  crosses : st.taker.Crosses maker.priceTicks
  active : st.taker.remainingSizeLots ≠ 0

inductive FillStep (seqId : Nat) (nowMs : UInt64) :
    MatchState → MatchState → Prop
  | fill {st : MatchState} {maker : Order} (meets : st.Meets maker)
      (trader : maker.traderId ≠ st.taker.traderId) :
      FillStep seqId nowMs st (st.fillAgainst maker seqId nowMs)

def FillRun (seqId : Nat) (nowMs : UInt64) : MatchState → MatchState → Prop :=
  Relation.ReflTransGen (FillStep seqId nowMs)

inductive MatchEnd (seqId : Nat) (st : MatchState) : MatchState → Prop
  | filled (full : st.taker.remainingSizeLots = 0) : MatchEnd seqId st st
  | exhausted (none : ∀ maker, st.book.Resting st.taker.side.opposite maker →
      ¬ st.taker.Crosses maker.priceTicks) : MatchEnd seqId st st
  | selfTrade {maker : Order} (meets : st.Meets maker)
      (trader : maker.traderId = st.taker.traderId) :
      MatchEnd seqId st { st with taker := cancelTaker st.taker seqId }

theorem MatchEnd.same {seqId : Nat} {st st' : MatchState}
    (h : MatchEnd seqId st st') :
    st'.book = st.book ∧ st'.fills = st.fills ∧
      st'.taker.terms = st.taker.terms := by
  cases h <;> exact ⟨rfl, rfl, rfl⟩

/-! ## One fill -/

section Fill

variable {st : MatchState} {maker : Order} {seqId : Nat} {nowMs : UInt64}

theorem MatchState.fillQty_eq_ite :
    st.fillQty maker =
      if st.taker.remainingSizeLots ≤ maker.remainingSizeLots then
        st.taker.remainingSizeLots
      else maker.remainingSizeLots := rfl

theorem MatchState.fillQty_le_taker :
    st.fillQty maker ≤ st.taker.remainingSizeLots := by
  rw [MatchState.fillQty_eq_ite]
  simp only [UInt64.le_iff_toNat_le]
  split <;> omega

theorem MatchState.fillQty_le_maker :
    st.fillQty maker ≤ maker.remainingSizeLots := by
  rw [MatchState.fillQty_eq_ite]
  simp only [UInt64.le_iff_toNat_le]
  split <;> omega

theorem MatchState.fillQty_eq (st : MatchState) (maker : Order) :
    st.fillQty maker = st.taker.remainingSizeLots ∨
      st.fillQty maker = maker.remainingSizeLots := by
  rw [MatchState.fillQty_eq_ite]
  split
  · exact .inl rfl
  · exact .inr rfl

theorem MatchState.Valid.get_maker (hvalid : st.Valid)
    (meets : st.Meets maker) :
    st.book.get maker.orderId = some maker ∧
      maker.side = st.taker.side.opposite ∧
      maker.isClosed = false :=
  hvalid.book.resting_iff.mp meets.first.1

theorem MatchState.Valid.fillQty_ne_zero (hvalid : st.Valid)
    (meets : st.Meets maker) : st.fillQty maker ≠ 0 := by
  obtain ⟨hget, -, hopen⟩ := hvalid.get_maker meets
  have hmaker := (hvalid.book.consistent hget).remaining_ne_zero hopen
  have htaker := meets.active
  rcases st.fillQty_eq maker with h | h <;> rwa [h]

theorem MatchState.Valid.fillAgainst (hvalid : st.Valid)
    (meets : st.Meets maker) : (st.fillAgainst maker seqId nowMs).Valid where
  book := by
    obtain ⟨hget, -, hopen⟩ := hvalid.get_maker meets
    exact OrderBook.fillMaker_valid hvalid.book hget hopen
      MatchState.fillQty_le_maker
      (hvalid.fillQty_ne_zero meets) seqId
  taker := applyFillTo_consistent hvalid.taker.filled_le
    MatchState.fillQty_le_taker
    (hvalid.fillQty_ne_zero meets)
  closed := applyFillTo_isClosed_iff.mp
  uncancelled := by
    change (applyFillTo st.taker (st.fillQty maker) seqId).status ≠ _
    rw [applyFillTo_status]
    split <;> simp

theorem applyFillTo_remaining {order : Order} {qty : UInt64}
    (hle : order.filledSizeLots ≤ order.origSizeLots)
    (hqty : qty ≤ order.remainingSizeLots) :
    (applyFillTo order qty seqId).remainingSizeLots.toNat =
      order.remainingSizeLots.toNat - qty.toNat := by
  rw [Order.remainingSizeLots_toNat (applyFillTo_filled_le _ hle hqty),
    Order.remainingSizeLots_toNat hle, applyFillTo_filledSizeLots,
      filled_add_toNat hle hqty]
  simp only [applyFillTo_origSizeLots]
  omega

theorem MatchState.Valid.fill_completes (hvalid : st.Valid)
    (meets : st.Meets maker)
    (hactive : (applyFillTo st.taker
      (st.fillQty maker) seqId).remainingSizeLots ≠ 0) :
    (applyFillTo maker (st.fillQty maker) seqId).isClosed = true := by
  obtain ⟨hget, -, -⟩ := hvalid.get_maker meets
  rw [applyFillTo_isClosed_iff, ← UInt64.toNat_inj,
    applyFillTo_remaining (hvalid.book.consistent hget).filled_le
      MatchState.fillQty_le_maker]
  rcases st.fillQty_eq maker with h | h
  · refine absurd ?_ hactive
    rw [← UInt64.toNat_inj,
      applyFillTo_remaining hvalid.taker.filled_le MatchState.fillQty_le_taker,
        h]
    simp
  · simp [h]

theorem FillStep.valid {st' : MatchState} (h : FillStep seqId nowMs st st')
    (hvalid : st.Valid) : st'.Valid := by
  cases h with
  | fill meets _ => exact hvalid.fillAgainst meets

theorem FillRun.valid {st' : MatchState} (h : FillRun seqId nowMs st st')
    (hvalid : st.Valid) : st'.Valid := by
  induction h with
  | refl => exact hvalid
  | tail _ hstep ih => exact hstep.valid ih

theorem FillRun.taker_terms {st' : MatchState}
    (h : FillRun seqId nowMs st st') : st'.taker.terms = st.taker.terms := by
  induction h with
  | refl => rfl
  | tail _ hstep ih =>
      cases hstep with
      | fill _ _ => exact ih

end Fill

/-! ## The prices a taker can trade at -/

def crossablePrices (book : OrderBook) (taker : Order) : List UInt64 :=
  match taker.side with
  | .buy => book.askPricesAsc.takeWhile fun p => p ≤ taker.priceTicks
  | .sell => book.bidPricesDesc.takeWhile fun p => p ≥ taker.priceTicks

theorem matchOrder_eq (book : OrderBook) (taker : Order) (seqId : Nat)
    (nowMs : UInt64) :
    matchOrder book taker seqId nowMs =
      forLoop (matchLevel taker.side.opposite seqId nowMs)
        (crossablePrices book taker)
        ⟨book, taker, []⟩ := by
  unfold matchOrder crossablePrices
  cases taker.side <;> rfl

def OrderBook.pricesByPriority (book : OrderBook) : Side → List UInt64
  | .sell => book.askPricesAsc
  | .buy => book.bidPricesDesc

theorem OrderBook.pricesByPriority_sorted (book : OrderBook) (side : Side) :
    (book.pricesByPriority side).Pairwise side.Better := by
  cases side with
  | sell =>
      refine (Std.ExtTreeMap.ordered_keys (t := book.asks)).imp fun h => ?_
      exact Std.compare_eq_lt.mp h
  | buy =>
      unfold OrderBook.pricesByPriority OrderBook.bidPricesDesc
      rw [List.pairwise_reverse]
      refine (Std.ExtTreeMap.ordered_keys (t := book.bids)).imp fun h => ?_
      exact Std.compare_eq_lt.mp h

theorem OrderBook.Valid.mem_pricesByPriority {book : OrderBook}
    (hvalid : book.Valid) (side : Side) (price : UInt64) :
    price ∈ book.pricesByPriority side ↔
      book.ordersAtPrice price side ≠ [] := by
  cases side with
  | sell =>
      exact QueueMap.mem_keys_iff_queue_ne_nil (hvalid.noEmpty .sell) price
  | buy =>
      unfold OrderBook.pricesByPriority OrderBook.bidPricesDesc
      rw [List.mem_reverse]
      exact QueueMap.mem_keys_iff_queue_ne_nil (hvalid.noEmpty .buy) price

theorem crossablePrices_eq (book : OrderBook) (taker : Order) :
    crossablePrices book taker =
      (book.pricesByPriority taker.side.opposite).takeWhile fun p =>
        taker.Crosses p := by
  unfold crossablePrices
  cases hside : taker.side <;>
    simp [Order.Crosses, hside, Side.opposite, OrderBook.pricesByPriority]

theorem Order.Crosses.better_of_not {taker : Order} {p q : UInt64}
    (hp : taker.Crosses p) (hq : ¬ taker.Crosses q) :
    taker.side.opposite.Better p q := by
  unfold Order.Crosses at hp hq
  cases hside : taker.side with
  | buy =>
      rw [hside] at hp hq
      simp only [Side.opposite, Side.Better]
      grind
  | sell =>
      rw [hside] at hp hq
      simp only [Side.opposite, Side.Better]
      grind

theorem Order.Crosses.of_better {taker : Order} {p q : UInt64}
    (hq : taker.Crosses q) (hbetter : taker.side.opposite.Better p q) :
    taker.Crosses p := by
  unfold Order.Crosses at hq ⊢
  cases hside : taker.side with
  | buy =>
      simp only [hside, Side.opposite, Side.Better] at hq hbetter ⊢
      grind
  | sell =>
      simp only [hside, Side.opposite, Side.Better] at hq hbetter ⊢
      grind

theorem crossablePrices_sorted (book : OrderBook) (taker : Order) :
    (crossablePrices book taker).Pairwise taker.side.opposite.Better := by
  rw [crossablePrices_eq]
  exact (book.pricesByPriority_sorted _).sublist (List.takeWhile_sublist _)

theorem mem_crossablePrices {book : OrderBook} (hvalid : book.Valid)
    (taker : Order) (price : UInt64) :
    price ∈ crossablePrices book taker ↔
      book.ordersAtPrice price taker.side.opposite ≠ [] ∧
        taker.Crosses price := by
  rw [crossablePrices_eq, mem_takeWhile_iff (book.pricesByPriority_sorted _),
    hvalid.mem_pricesByPriority, decide_eq_true_eq]
  intro p q hbetter hq
  exact decide_eq_true (Order.Crosses.of_better (of_decide_eq_true hq) hbetter)

/-! ## One level -/

section Level

variable {start : MatchState} {seqId : Nat} {nowMs : UInt64}

/--
In the middle of a level: its queue is still to come, and so are the later
prices.
-/
structure LevelInv (seqId : Nat) (nowMs : UInt64) (start : MatchState)
    (price : UInt64) (later : List UInt64) (ids : List OrderId)
    (st : MatchState) : Prop where
  run : FillRun seqId nowMs start st
  queue : st.taker.remainingSizeLots ≠ 0 →
    st.book.ordersAtPrice price start.taker.side.opposite = ids
  rest : ∀ q, start.taker.Crosses q →
    st.book.ordersAtPrice q start.taker.side.opposite ≠ [] →
      q = price ∨ q ∈ later

/--
Between two levels: matching goes on with the later prices or has met its own
trader.
-/
inductive LevelEnd (seqId : Nat) (nowMs : UInt64) (start : MatchState)
    (later : List UInt64) : MatchState → Prop
  | swept {st : MatchState} (run : FillRun seqId nowMs start st)
      (rest : st.taker.remainingSizeLots ≠ 0 → ∀ q, start.taker.Crosses q →
        st.book.ordersAtPrice q start.taker.side.opposite ≠ [] → q ∈ later) :
      LevelEnd seqId nowMs start later st
  | selfTrade {st : MatchState} {maker : Order}
      (run : FillRun seqId nowMs start st)
      (meets : st.Meets maker) (trader : maker.traderId = st.taker.traderId) :
      LevelEnd seqId nowMs start later
        { st with taker := cancelTaker st.taker seqId }

structure SweepInv (seqId : Nat) (nowMs : UInt64) (start : MatchState)
    (later : List UInt64) (st : MatchState) : Prop where
  levelEnd : LevelEnd seqId nowMs start later st
  sorted : later.Pairwise start.taker.side.opposite.Better
  crosses : ∀ q ∈ later, start.taker.Crosses q

def Swept (seqId : Nat) (nowMs : UInt64) (start st' : MatchState) : Prop :=
  ∃ st, FillRun seqId nowMs start st ∧ MatchEnd seqId st st'

theorem FillRun.side {st : MatchState} (h : FillRun seqId nowMs start st) :
    st.taker.side = start.taker.side := by
  simpa using congrArg Order.side h.taker_terms

theorem FillRun.crosses {st : MatchState} (h : FillRun seqId nowMs start st)
    (price : UInt64) : st.taker.Crosses price ↔ start.taker.Crosses price := by
  have hprice : st.taker.priceTicks = start.taker.priceTicks := by
    simpa using congrArg Order.priceTicks h.taker_terms
  simp [Order.Crosses, h.side, hprice]

theorem ordersAtPrice_fillMaker {book : OrderBook} {id : OrderId}
    {maker : Order} (hget : book.get id = some maker) (qty : UInt64)
    (seqId : Nat) (price : UInt64) (side : Side) :
    (fillMaker book id qty seqId).ordersAtPrice price side =
      if (applyFillTo maker qty seqId).isClosed = true ∧ side = maker.side ∧
          price = maker.priceTicks then
        (book.ordersAtPrice price side).filter fun id' => id' ≠ id
      else book.ordersAtPrice price side :=
  OrderBook.ordersAtPrice_settle hget rfl rfl price side

theorem head_first {st : MatchState} (hvalid : st.book.Valid) {price : UInt64}
    {id : OrderId} {ids : List OrderId}
    (hqueue : st.book.ordersAtPrice price st.taker.side.opposite = id :: ids)
    (hcrosses : st.taker.Crosses price)
    (hbest : ∀ q, st.taker.Crosses q →
      st.book.ordersAtPrice q st.taker.side.opposite ≠ [] →
      q = price ∨ st.taker.side.opposite.Better price q) :
    ∃ maker, st.book.get id = some maker ∧ maker.isClosed = false ∧
      maker.orderId = id ∧ maker.priceTicks = price ∧
      st.book.First st.taker.side.opposite maker := by
  have hmem : id ∈ st.book.ordersAtPrice price st.taker.side.opposite := by
    simp [hqueue]
  obtain ⟨maker, hget, hside, hprice, hopen⟩ := hvalid.queued_iff.mp hmem
  have hid : maker.orderId = id := hvalid.key hget
  refine ⟨maker, hget, hopen, hid, hprice, ?_, ?_⟩
  · exact hvalid.resting_iff.mpr ⟨by rwa [hid], hside, hopen⟩
  · intro order hresting hne
    obtain ⟨hget', hside', hopen'⟩ := hvalid.resting_iff.mp hresting
    have hmem' : order.orderId ∈
        st.book.ordersAtPrice order.priceTicks st.taker.side.opposite :=
      hvalid.queued_iff.mpr ⟨order, hget', hside', rfl, hopen'⟩
    have hlevel : order.priceTicks = price ∨
        st.taker.side.opposite.Better price order.priceTicks := by
      by_cases hcross : st.taker.Crosses order.priceTicks
      · exact hbest _ hcross (List.ne_nil_of_mem hmem')
      · exact .inr (hcrosses.better_of_not hcross)
    rcases hlevel with heq | hbetter
    · have hfifo := hvalid.fifo price st.taker.side.opposite
      rw [heq, hqueue, List.mem_cons] at hmem'
      rw [hqueue, List.pairwise_cons] at hfifo
      have hids : order.orderId ∈ ids := by
        refine hmem'.resolve_left fun h => hne ?_
        rw [h, hget] at hget'
        exact (Option.some.inj hget').symm
      have hlt := hfifo.1 _ hids
      rw [OrderBook.createdOf_eq hget, OrderBook.createdOf_eq hget'] at hlt
      unfold Order.Precedes
      rw [hprice, heq]
      exact .right _ hlt
    · unfold Order.Precedes
      rw [hprice]
      exact .left _ _ hbetter

theorem LevelInv.meets (hstart : start.Valid) {price : UInt64}
    {later : List UInt64} (hcrosses : start.taker.Crosses price)
    (hlater : ∀ q ∈ later, start.taker.side.opposite.Better price q)
    {id : OrderId} {ids : List OrderId} {st : MatchState}
    (h : LevelInv seqId nowMs start price later (id :: ids) st)
    (hactive : st.taker.remainingSizeLots ≠ 0) :
    ∃ maker, st.book.get id = some maker ∧ maker.isClosed = false ∧
      maker.orderId = id ∧ maker.priceTicks = price ∧ st.Meets maker := by
  have hside := h.run.side
  obtain ⟨maker, hget, hopen, hid, hprice, hfirst⟩ :=
    head_first (h.run.valid hstart).book
    (hside ▸ h.queue hactive) ((h.run.crosses price).mpr hcrosses) (by
      intro q hq hne
      rw [hside] at hne ⊢
      exact (h.rest q ((h.run.crosses q).mp hq) hne).imp_right (hlater q))
  refine ⟨maker, hget, hopen, hid, hprice, hfirst, ?_, hactive⟩
  rw [hprice]
  exact (h.run.crosses price).mpr hcrosses

theorem matchMaker_keeps (hstart : start.Valid) {price : UInt64}
    {later : List UInt64} (hcrosses : start.taker.Crosses price)
    (hlater : ∀ q ∈ later, start.taker.side.opposite.Better price q)
    (id : OrderId) (ids : List OrderId) (st : MatchState)
    (h : LevelInv seqId nowMs start price later (id :: ids) st) :
    Continues (LevelInv seqId nowMs start price later)
      (LevelEnd seqId nowMs start later) ids
      (matchMaker price seqId nowMs st id) := by
  unfold matchMaker
  by_cases hfull : st.taker.remainingSizeLots = 0
  · rw [if_pos hfull]
    exact .swept h.run fun hne => absurd hfull hne
  rw [if_neg hfull]
  have hvalid := h.run.valid hstart
  have hside := h.run.side
  obtain ⟨maker, hget, hopen, rfl, rfl, hmeets⟩ :=
    h.meets hstart hcrosses hlater hfull
  simp only [hget, hopen, Bool.false_eq_true, if_false]
  by_cases htrader : maker.traderId = st.taker.traderId
  · rw [if_pos htrader]
    exact .selfTrade h.run hmeets htrader
  rw [if_neg htrader]
  have hmaker : maker.side = start.taker.side.opposite :=
    (hvalid.get_maker hmeets).2.1.trans (by rw [hside])
  change LevelInv seqId nowMs start maker.priceTicks later ids
    (st.fillAgainst maker seqId nowMs)
  have horders : ∀ q side,
      (st.fillAgainst maker seqId nowMs).book.ordersAtPrice q side = _ :=
    fun q side => ordersAtPrice_fillMaker hget (st.fillQty maker) seqId q side
  refine ⟨h.run.tail (.fill hmeets htrader), fun hactive => ?_,
    fun q hq hne => ?_⟩
  · have hclosed := hvalid.fill_completes hmeets hactive
    have hnodup :=
      hvalid.book.queue_nodup maker.priceTicks start.taker.side.opposite
    rw [h.queue hfull, List.nodup_cons] at hnodup
    simp only [horders, hclosed, hmaker, and_self, if_true, h.queue hfull]
    rw [List.filter_cons_of_neg (by simp), List.filter_eq_self]
    intro id hid
    rw [decide_eq_true_eq]
    rintro rfl
    exact hnodup.1 hid
  · refine h.rest q hq fun hnil => hne ?_
    rw [horders, hnil]
    simp

theorem matchLevel_keeps (hstart : start.Valid) (price : UInt64)
    (later : List UInt64) (st : MatchState)
    (h : SweepInv seqId nowMs start (price :: later) st) :
    Continues (SweepInv seqId nowMs start) (Swept seqId nowMs start) later
      (matchLevel start.taker.side.opposite seqId nowMs st price) := by
  obtain ⟨hend, hsorted, hcrosses⟩ := h
  rw [List.pairwise_cons] at hsorted
  unfold matchLevel
  cases hend with
  | swept run rest =>
      by_cases hfull : st.taker.remainingSizeLots = 0
      · rw [if_pos hfull]
        exact ⟨st, run, .filled hfull⟩
      rw [if_neg hfull]
      have hopen : st.taker.isClosed = false := by
        by_contra hclosed
        exact hfull ((run.valid hstart).closed (by simpa using hclosed))
      rw [hopen, if_neg (by simp)]
      refine ⟨?_, hsorted.2, fun q hq => hcrosses q (.tail _ hq)⟩
      unfold matchAtPriceLevel
      refine forLoop_induction
        (matchMaker_keeps hstart (hcrosses price (.head _)) hsorted.1) ?_ _ _ ?_
      · intro st' h
        refine .swept h.run fun hactive q hq hne =>
          (h.rest q hq hne).resolve_left ?_
        rintro rfl
        exact hne (h.queue hactive)
      · exact ⟨run, fun _ => rfl,
          fun q hq hne => by simpa using rest hfull q hq hne⟩
  | selfTrade run meets trader =>
      rw [if_neg (by exact meets.active), if_pos (by rfl)]
      exact ⟨_, run, .selfTrade meets trader⟩

end Level

/-! ## The whole loop -/

theorem matchOrder_terms (book : OrderBook) (taker : Order) (seqId : Nat)
    (nowMs : UInt64) :
    (matchOrder book taker seqId nowMs).taker.terms = taker.terms := by
  rw [matchOrder_eq]
  refine forLoop_preserves
    (P := fun st : MatchState => st.taker.terms = taker.terms)
    (fun st price h => ?_) _ _ rfl
  unfold matchLevel
  split
  · exact h
  · split
    · exact h
    · refine forLoop_preserves
        (P := fun st : MatchState => st.taker.terms = taker.terms)
        (fun st id h => ?_) _ _ h
      fun_cases matchMaker price seqId nowMs st id <;> exact h

theorem sweepInv_start {book : OrderBook} {taker : Order}
    (hvalid : (MatchState.mk book taker []).Valid) (seqId : Nat)
    (nowMs : UInt64) :
    SweepInv seqId nowMs ⟨book, taker, []⟩ (crossablePrices book taker)
      ⟨book, taker, []⟩ where
  levelEnd := .swept .refl fun _ q hq hne =>
    (mem_crossablePrices hvalid.book taker q).mpr ⟨hne, hq⟩
  sorted := crossablePrices_sorted book taker
  crosses := fun q hq => ((mem_crossablePrices hvalid.book taker q).mp hq).2

theorem matchOrder_run {book : OrderBook} {taker : Order}
    (hvalid : (MatchState.mk book taker []).Valid) (seqId : Nat)
    (nowMs : UInt64) :
    Swept seqId nowMs ⟨book, taker, []⟩
      (matchOrder book taker seqId nowMs) := by
  rw [matchOrder_eq]
  refine forLoop_induction (matchLevel_keeps hvalid) ?_ _ _
    (sweepInv_start hvalid seqId nowMs)
  rintro st ⟨hend, -, -⟩
  cases hend with
  | swept run rest =>
      by_cases hfull : st.taker.remainingSizeLots = 0
      · exact ⟨st, run, .filled hfull⟩
      refine ⟨st, run, .exhausted fun maker hresting hcross => ?_⟩
      rw [run.side] at hresting
      obtain ⟨hget, hside, hopen⟩ :=
        (run.valid hvalid).book.resting_iff.mp hresting
      have hmem :=
        (run.valid hvalid).book.queued_iff.mpr ⟨maker, hget, hside, rfl, hopen⟩
      exact List.not_mem_nil
        (rest hfull _ ((run.crosses _).mp hcross) (List.ne_nil_of_mem hmem))
  | selfTrade run meets trader => exact ⟨_, run, .selfTrade meets trader⟩

end ClobApi
