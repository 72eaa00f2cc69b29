import ClobApi.Engine.Intake
import ClobApi.Guarantees.Priority

/-!
# Prices in ticks and sizes in lots

The tick and the lot of a market are checked when an order is accepted, and
never again.  A fill trades at the maker's price and takes all that remains of
one of its two orders, so neither leaves a fraction of a lot behind.
-/

namespace ClobApi

open Foundation

def PositiveMultiple (n unit : UInt64) : Prop :=
  0 < n ∧ unit.toNat ∣ n.toNat

theorem positiveMultiple_of_isMultipleOf {n unit : UInt64} (hne : n ≠ 0)
    (hmultiple : isMultipleOf n unit = true) : PositiveMultiple n unit := by
  refine ⟨UInt64.pos_iff_ne_zero.mpr hne, Nat.dvd_of_mod_eq_zero ?_⟩
  rw [isMultipleOf, beq_iff_eq] at hmultiple
  rw [← UInt64.toNat_mod, hmultiple]
  rfl

/-! ## Orders and fills on the grid of their market -/

structure Order.OnGrid (tick lot : UInt64) (order : Order) : Prop where
  price : PositiveMultiple order.priceTicks tick
  orig : lot.toNat ∣ order.origSizeLots.toNat
  filled : lot.toNat ∣ order.filledSizeLots.toNat

structure Fill.OnGrid (tick lot : UInt64) (fill : Fill) : Prop where
  price : PositiveMultiple fill.priceTicks tick
  size : PositiveMultiple fill.sizeLots lot

section Grid

variable {tick lot : UInt64} {order : Order}

theorem Order.OnGrid.of_facts {order' : Order} (h : order.OnGrid tick lot)
    (hfacts : order'.facts = order.facts) : order'.OnGrid tick lot := by
  rw [Order.eq_of_facts hfacts]
  exact ⟨h.price, h.orig, h.filled⟩

theorem Order.OnGrid.remaining (h : order.OnGrid tick lot)
    (hle : order.filledSizeLots ≤ order.origSizeLots) :
    lot.toNat ∣ order.remainingSizeLots.toNat := by
  rw [Order.remainingSizeLots_toNat hle]
  exact Nat.dvd_sub h.orig h.filled

theorem Order.OnGrid.applyFillTo (h : order.OnGrid tick lot)
    (hle : order.filledSizeLots ≤ order.origSizeLots) {qty : UInt64}
    (hqty : qty ≤ order.remainingSizeLots) (hlot : lot.toNat ∣ qty.toNat)
    (seqId : Nat) : (applyFillTo order qty seqId).OnGrid tick lot where
  price := h.price
  orig := h.orig
  filled := by
    rw [applyFillTo_filledSizeLots, filled_add_toNat hle hqty]
    exact Nat.dvd_add h.filled hlot

theorem Order.OnGrid.fillOrder (h : order.OnGrid tick lot)
    (hle : order.filledSizeLots ≤ order.origSizeLots) {qty : UInt64}
    (hqty : qty ≤ order.remainingSizeLots) (hlot : lot.toNat ∣ qty.toNat)
    (seqId : Nat) : (Replay.fillOrder seqId qty order).OnGrid tick lot := by
  rw [fillOrder_eq_applyFillTo seqId hle hqty]
  exact h.applyFillTo hle hqty hlot seqId

end Grid

/-! ## What the log says of a market -/

def Event.OnGrid (marketId : String) (tick lot : UInt64) : Event → Prop
  | .orderAccepted order =>
      order.marketId.value = marketId → order.OnGrid tick lot
  | .fill trade => trade.marketId.value = marketId → trade.OnGrid tick lot
  | _ => True

def LogOnGrid (marketId : String) (tick lot : UInt64)
    (log : List SequencedEvent) : Prop :=
  ∀ se ∈ log, se.event.OnGrid marketId tick lot

section Log

variable {marketId : String} {tick lot : UInt64} {log : List SequencedEvent}

theorem Event.Quiet.onGrid {event : Event} (h : event.Quiet) :
    event.OnGrid marketId tick lot := by
  cases h <;> trivial

theorem LegalLog.onGrid {strict : Prop} (h : LegalLog strict log)
    (hlog : LogOnGrid marketId tick lot log) {id : OrderId} {order : Order}
    (hview : orderInLog log id = some order)
    (hmarket : order.marketId.value = marketId) : order.OnGrid tick lot := by
  induction h generalizing order with
  | nil => cases hview
  | @append log event timestampMs init last ih =>
      have hinit : LogOnGrid marketId tick lot log := fun se hse =>
        hlog se (List.mem_append_left _ hse)
      have hlast := hlog _ (List.mem_append_right _ (.head _))
      rw [orderInLog_append] at hview
      cases last with
      | orderAccepted =>
          simp only [viewStep] at hview
          split at hview
          · cases hview
            exact hlast hmarket
          · exact ih hinit hview hmarket
      | @fill fill taker maker htaker hmaker legal =>
          have hfilled : ∀ {old : Order}, orderInLog log id = some old →
              old.marketId = fill.marketId →
              fill.sizeLots ≤ old.remainingSizeLots →
              Replay.fillOrder (log.length + 1) fill.sizeLots old = order →
              order.OnGrid tick lot := by
            rintro old hold hsame hroom rfl
            have hgrid : fill.OnGrid tick lot := hlast (hsame ▸ hmarket)
            exact (ih hinit hold hmarket).fillOrder
              (init.loggedOrder hold).consistent.filled_le hroom
              hgrid.size.2 _
          rw [viewStep_fill legal.distinct] at hview
          split at hview
          · next hid =>
              rcases hid with rfl | rfl
              · rw [htaker] at hview
                exact hfilled htaker legal.takerMarket legal.takerRoom
                  (Option.some.inj hview)
              · rw [hmaker] at hview
                exact hfilled hmaker legal.makerMarket legal.makerRoom
                  (Option.some.inj hview)
          · exact ih hinit hview hmarket
      | @orderCancelled cancelled old reason hold live =>
          rw [viewStep_cancel] at hview
          split at hview
          · next hid =>
              subst hid
              rw [hold] at hview
              cases hview
              have hgrid : old.OnGrid tick lot := ih hinit hold hmarket
              exact ⟨hgrid.price, hgrid.orig, hgrid.filled⟩
          · exact ih hinit hview hmarket
      | marketPaused => exact ih hinit hview hmarket
      | marketResumed => exact ih hinit hview hmarket

end Log

/-! ## Matching -/

structure MatchState.OnGrid (tick lot : UInt64) (st : MatchState) : Prop where
  book : ∀ {id order}, st.book.get id = some order → order.OnGrid tick lot
  taker : st.taker.OnGrid tick lot

section Matching

variable {tick lot : UInt64} {seqId : Nat} {nowMs : UInt64}
  {st st' : MatchState}

theorem MatchState.OnGrid.fillQty (h : st.OnGrid tick lot) (hvalid : st.Valid)
    {maker : Order} (hget : st.book.get maker.orderId = some maker) :
    lot.toNat ∣ (st.fillQty maker).toNat := by
  obtain htaker | hmaker := st.fillQty_eq maker
  · rw [htaker]
    exact h.taker.remaining hvalid.taker.filled_le
  · rw [hmaker]
    exact (h.book hget).remaining (hvalid.book.consistent hget).filled_le

theorem MatchState.OnGrid.makeFill (h : st.OnGrid tick lot)
    (hvalid : st.Valid) {maker : Order} (meets : st.Meets maker) :
    (makeFill st.taker maker maker.priceTicks (st.fillQty maker) seqId
      nowMs).OnGrid tick lot := by
  obtain ⟨hget, -, -⟩ := hvalid.get_maker meets
  have hpos := UInt64.pos_iff_ne_zero.mpr (hvalid.fillQty_ne_zero meets)
  exact ⟨(h.book hget).price, hpos, h.fillQty hvalid hget⟩

theorem FillStep.onGrid (h : FillStep seqId nowMs st st') (hvalid : st.Valid)
    (hgrid : st.OnGrid tick lot) : st'.OnGrid tick lot := by
  cases h with
  | @fill maker meets trader =>
      obtain ⟨hget, -, -⟩ := hvalid.get_maker meets
      have hlot := hgrid.fillQty hvalid hget
      refine ⟨fun {id order} hstored => ?_, ?_⟩
      · change (fillMaker st.book maker.orderId (st.fillQty maker) seqId).get
          id = some order at hstored
        rw [OrderBook.fillMaker_eq_settle, OrderBook.get_settle] at hstored
        split at hstored
        · next hid =>
            rw [hid, hget] at hstored
            cases hstored
            exact (hgrid.book hget).applyFillTo
              (hvalid.book.consistent hget).filled_le
              MatchState.fillQty_le_maker hlot seqId
        · exact hgrid.book hstored
      · exact hgrid.taker.applyFillTo hvalid.taker.filled_le
          MatchState.fillQty_le_taker hlot seqId

theorem FillRun.onGrid (h : FillRun seqId nowMs st st') (hvalid : st.Valid)
    (hgrid : st.OnGrid tick lot) : st'.OnGrid tick lot := by
  induction h with
  | refl => exact hgrid
  | tail hrun hstep ih => exact hstep.onGrid (FillRun.valid hrun hvalid) ih

end Matching

/-! ## Runs -/

section Runs

variable {crypto : Crypto} {e : Engine} {marketId : String} {tick lot : UInt64}

def MarketConfig.HasGrid (marketId : String) (tick lot : UInt64)
    (config : MarketConfig) : Prop :=
  config.id.value = marketId → config.tickSize = tick ∧ config.lotSize = lot

theorem Engine.Submits.onGrid {signed : SignedOrder} {env : CallEnv}
    (hsubmits : Submits crypto e signed env)
    (hmarkets : e.MarketsSatisfy (MarketConfig.HasGrid marketId tick lot))
    (hmarket : signed.marketId.value = marketId) (seqId : Nat) :
    (buildOrder crypto signed env seqId).OnGrid tick lot := by
  obtain ⟨market, hlisted, -, hprice, hsize⟩ :=
    (checkIntake_ok_iff.mp hsubmits.intake).trades
  obtain ⟨hid, hgrid⟩ := hmarkets _ _ hlisted
  obtain ⟨rfl, rfl⟩ := hgrid (hid.trans hmarket)
  obtain ⟨hprice, htick⟩ := MarketConfig.validatePrice_ok hprice
  obtain ⟨hsize, hlot⟩ := MarketConfig.validateSize_ok hsize
  exact ⟨positiveMultiple_of_isMultipleOf hprice htick,
    (positiveMultiple_of_isMultipleOf hsize hlot).2, Nat.dvd_zero _⟩

theorem Engine.Inv.stored_onGrid {completed basic : Prop}
    (h : e.Inv completed basic noOrder)
    (hlog : LogOnGrid marketId tick lot e.log) {book : OrderBook}
    (hlisted : e.books.get? marketId = some book) {id : OrderId}
    {order : Order} (hget : book.get id = some order) :
    order.OnGrid tick lot := by
  obtain ⟨logged, hview, hmatches⟩ :=
    h.sync.stored (storedOrder_eq_some.mpr ⟨book, hlisted, hget⟩)
  exact (h.legal.onGrid hlog hview hmatches.logged_market).of_facts
    hmatches.facts.symm

theorem apply_onGrid (hinv : e.Inv False False noOrder)
    (hmarkets : e.MarketsSatisfy (MarketConfig.HasGrid marketId tick lot))
    {op : Op} (hadmits : e.Admits op)
    (hlog : LogOnGrid marketId tick lot e.log) :
    LogOnGrid marketId tick lot (e.apply crypto op).1.log := by
  intro se hse
  obtain hold | hnew := apply_appended hadmits hse
  · exact hlog se hold
  cases hnew with
  | quiet quiet => exact quiet.onGrid
  | accepted submits event =>
      rw [event]
      exact fun hmarket => submits.onGrid hmarkets hmarket _
  | @fill signed env se book fill submits listed made event later =>
      rw [event]
      intro hmarket
      rw [submits.fills_market hinv hadmits listed fill made] at hmarket
      have hstart := matching_start hinv submits hadmits listed
      have hgrid : MatchState.OnGrid tick lot ⟨book, Engine.buildOrder crypto
          signed env e.sequencer.peekNextSeqId, []⟩ :=
        ⟨fun hget => hinv.stored_onGrid hlog (hmarket ▸ listed) hget,
          submits.onGrid hmarkets hmarket _⟩
      obtain ⟨st, maker, hrun, hmeets, -, rfl⟩ :=
        exists_moment hstart.valid made
      exact (hrun.onGrid hstart.valid hgrid).makeFill
        (hrun.valid hstart.valid) hmeets

theorem Step.run_onGrid {ops : List Op} (h : Run (Step crypto) .new ops e)
    (hconfig : ∀ config, .addMarket config ∈ ops →
      config.HasGrid marketId tick lot) :
    LogOnGrid marketId tick lot e.log := by
  induction h with
  | start => exact nofun
  | next hrun hstep ih =>
      have hbefore := fun config hmem =>
        hconfig config (List.mem_append_left _ hmem)
      obtain ⟨hadmits, rfl⟩ := hstep
      exact apply_onGrid (Step.run_inv hrun)
        (Step.run_marketsSatisfy hrun (fun _ _ hgrid => hgrid) hbefore)
        hadmits (ih hbefore)

/--
While a market keeps its tick and its lot, every order that rests in it and
every fill in it has a price in whole ticks and a size in whole lots.
-/
theorem trading_keeps_grid {ops : List Op} (h : Run (Step crypto) .new ops e)
    (hconfig : ∀ config, .addMarket config ∈ ops →
      config.id.value = marketId →
      config.tickSize = tick ∧ config.lotSize = lot) :
    (∀ book, e.books.get? marketId = some book →
      ∀ side order, book.Resting side order →
        PositiveMultiple order.priceTicks tick ∧
          PositiveMultiple order.remainingSizeLots lot) ∧
      ∀ fill ∈ fillsOf marketId e.log,
        PositiveMultiple fill.priceTicks tick ∧
          PositiveMultiple fill.sizeLots lot := by
  have hinv := Step.run_inv h
  have hlog := Step.run_onGrid h hconfig
  constructor
  · intro book hlisted side order hresting
    have hvalid := hinv.sync.valid hlisted
    obtain ⟨hget, -, hopen⟩ := hvalid.resting_iff.mp hresting
    have hgrid := hinv.stored_onGrid hlog hlisted hget
    have hconsistent := hvalid.consistent hget
    exact ⟨hgrid.price,
      UInt64.pos_iff_ne_zero.mpr (hconsistent.remaining_ne_zero hopen),
      hgrid.remaining hconsistent.filled_le⟩
  · intro fill hfill
    obtain ⟨hmem, hmarket⟩ := List.mem_filter.mp hfill
    obtain ⟨se, hse, hevent⟩ := List.mem_filterMap.mp hmem
    have hgrid := hlog se hse
    cases hev : se.event with
    | fill trade =>
        rw [hev] at hgrid hevent
        obtain rfl := Option.some.inj hevent
        have honGrid := hgrid (by simpa [Fill.isIn] using hmarket)
        exact ⟨honGrid.price, honGrid.size⟩
    | _ =>
        rw [hev] at hevent
        cases hevent

end Runs

/-! ## A session in a market with a coarse grid -/

namespace Sample

def coarseMarket : MarketConfig :=
  { market with
    tickSize := 50
    lotSize := 2 }

def coarse : List Op :=
  [.addMarket coarseMarket, .processOrder ask askEnv, .processOrder bid bidEnv]

theorem coarse_run : Run (Step crypto) .new coarse (after coarse) := by
  have hask : (after [.addMarket coarseMarket]).Admits
      (.processOrder ask askEnv) := nofun
  have hbid : (after [.addMarket coarseMarket,
      .processOrder ask askEnv]).Admits (.processOrder bid bidEnv) := by
    have hlog : (after [.addMarket coarseMarket,
        .processOrder ask askEnv]).log =
          [⟨1, 2000, .orderAccepted askOrder⟩] := by
      decide +kernel
    change ∀ order ∈ accepted (after _).log, order.orderId ≠ ⟨"bid"⟩
    rw [hlog]
    decide
  exact .next (.next (.next .start ⟨trivial, rfl⟩) ⟨hask, rfl⟩) ⟨hbid, rfl⟩

theorem coarse_keeps_grid :
    ∃ fill, fillsOf "BTC-USD" (after coarse).log = [fill] ∧
      PositiveMultiple fill.priceTicks 50 ∧
      PositiveMultiple fill.sizeLots 2 := by
  have hlog : (after coarse).log = tradedLog := by
    decide +kernel
  have hfills : fillsOf "BTC-USD" (after coarse).log =
      [makeFill bidOrder askOrder 100 4 2 2000] := by
    rw [hlog]
    rfl
  have hgrid : ∀ fill ∈ fillsOf "BTC-USD" (after coarse).log,
      PositiveMultiple fill.priceTicks 50 ∧ PositiveMultiple fill.sizeLots 2 :=
    (trading_keeps_grid coarse_run (by simp [coarse, coarseMarket])).2
  refine ⟨_, hfills, hgrid _ ?_⟩
  rw [hfills]
  exact .head _

end Sample

end ClobApi
