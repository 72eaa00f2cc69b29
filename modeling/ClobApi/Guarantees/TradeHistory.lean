import ClobApi.Api.Trades
import ClobApi.Guarantees.Priority

/-!
# Reading the history of trades

`get_fills` compares `from_seq` with the numbers of the fill events, a trade
reports the number of its taker's acceptance, which is lower.  So the last trade
of a page is on the next page again, and no client reaches an empty page.
-/

namespace ClobApi

open Foundation

/-! ## The numbers of fills -/

def FillsBehind (log : List SequencedEvent) : Prop :=
  ∀ se ∈ log, ∀ fill, se.event = .fill fill → fill.sequenceId < se.seqId

theorem Step.run_fillsBehind {crypto : Crypto} {ops : List Op} {e : Engine}
    (h : Run (Step crypto) .new ops e) : FillsBehind e.log := by
  induction h with
  | start =>
      intro se hse
      cases hse
  | next hrun hstep ih =>
      obtain ⟨hadmits, rfl⟩ := hstep
      intro se hse fill hfill
      obtain hold | hnew := apply_appended hadmits hse
      · exact ih se hold fill hfill
      · cases hnew with
        | quiet quiet =>
            rw [hfill] at quiet
            cases quiet
        | accepted submits event =>
            rw [hfill] at event
            cases event
        | fill submits listed made event later =>
            rw [hfill] at event
            obtain rfl := Event.fill.inj event
            have hstart :=
              matching_start (Step.run_inv hrun) submits hadmits listed
            obtain ⟨st, maker, -, -, -, rfl⟩ := exists_moment hstart.valid made
            exact later

/-! ## Paging through the trades -/

def allTrades (marketId : String) (log : List SequencedEvent) :
    List TradeResponse :=
  (fillsOf marketId log).map .ofFill

/--
The client that starts at 1 and goes on behind the number of the last trade
comes to an empty page, and has then received every trade once, in order.
-/
def Engine.TradesPaged (e : Engine) (marketId : String) (limit : Nat) : Prop :=
  e.ReadsTrades marketId limit 1 (allTrades marketId e.log)

section Paged

variable {crypto : Crypto} {ops : List Op} {e : Engine} {marketId : String}
  {limit : Nat}

theorem map_numberedFills (marketId : String) (log : List SequencedEvent) :
    (numberedFills marketId log).map Prod.snd = fillsOf marketId log := by
  induction log with
  | nil => rfl
  | cons se log ih =>
      unfold numberedFills fillsOf fillsIn Engine.fillFrom Fill.isIn at *
      cases hev : se.event with
      | fill fill =>
          by_cases hmarket : fill.marketId.value = marketId
          · simpa [hev, hmarket, Event.fill?] using ih
          · simpa [hev, hmarket, Event.fill?] using ih
      | _ => simpa [hev, Event.fill?] using ih

theorem numberedFills_sorted (h : Run (Step crypto) .new ops e)
    (marketId : String) :
    (numberedFills marketId e.log).Pairwise fun a b => a.1 < b.1 := by
  have hnumbers : (e.log.map SequencedEvent.seqId).Pairwise (· < ·) := by
    rw [(Step.run_inv h).legal.seqIds]
    exact List.pairwise_lt_range' 1 Nat.one_pos
  rw [List.pairwise_map] at hnumbers
  refine List.pairwise_filterMap.mpr (hnumbers.imp fun hlt a ha b hb => ?_)
  obtain ⟨fill, -, rfl⟩ := Option.map_eq_some_iff.mp ha
  obtain ⟨fill', -, rfl⟩ := Option.map_eq_some_iff.mp hb
  exact hlt

theorem numberedFills_pos (h : Run (Step crypto) .new ops e)
    {entry : Nat × Fill} (hentry : entry ∈ numberedFills marketId e.log) :
    1 ≤ entry.1 := by
  obtain ⟨se, hse, hnumber, -⟩ := mem_numberedFills.mp hentry
  have hmem : se.seqId ∈ e.log.map SequencedEvent.seqId :=
    List.mem_map_of_mem hse
  rw [(Step.run_inv h).legal.seqIds, List.mem_range'_1] at hmem
  exact hnumber ▸ hmem.1

/--
`get_fills` pages well for a client that knows each fill by the number of its
event, as the channel `trades.{market_id}` reports it.
-/
theorem getFills_complete (h : Run (Step crypto) .new ops e)
    (hlimit : 1 ≤ limit) {number : Fill → Nat}
    (hnumber : ∀ entry ∈ numberedFills marketId e.log,
      number entry.2 = entry.1) :
    Session (fun fromSeq page => page = e.getFills marketId fromSeq limit)
      number 1 (fillsOf marketId e.log) := by
  have hall : ((numberedFills marketId e.log).filter fun entry =>
      1 ≤ entry.1) = numberedFills marketId e.log :=
    List.filter_eq_self.mpr fun entry hentry => by
      simpa using numberedFills_pos h hentry
  have hcomplete := Session.complete (numberedFills_sorted h marketId) hlimit
    hnumber 1
  rw [hall, map_numberedFills] at hcomplete
  simpa only [← getFills_eq_pageOf e marketId hlimit] using hcomplete

theorem ReadsTrades.passed (h : Run (Step crypto) .new ops e)
    (hlimit : 1 ≤ limit) {fromSeq : Nat} {trades : List TradeResponse}
    (hreads : e.ReadsTrades marketId limit fromSeq trades) :
    (e.books.get? marketId).isSome ∧
      ∀ entry ∈ numberedFills marketId e.log, entry.1 < fromSeq := by
  cases hbook : e.books.get? marketId with
  | none =>
      have hrefused : ∀ fromSeq trades,
          ¬ e.TradesPage marketId limit fromSeq trades := by
        intro fromSeq trades
        simp [Engine.TradesPage, Engine.getTrades, Engine.bestPrices, hbook]
      cases hreads with
      | stop empty => exact absurd empty (hrefused _ _)
      | next received later => exact absurd received (hrefused _ _)
  | some book =>
      refine ⟨rfl, ?_⟩
      have hcap : 0 < min limit 1000 := by omega
      have hpage : e.TradesPage marketId limit = fun fromSeq page =>
          page = pageOf Prod.fst (fun entry => TradeResponse.ofFill entry.2)
            (numberedFills marketId e.log) (min limit 1000) fromSeq := by
        funext fromSeq page
        unfold Engine.TradesPage
        rw [getTrades_eq_pageOf hbook (show 0 < limit from hlimit)]
        simp only [Except.ok.injEq]
        exact propext eq_comm
      unfold Engine.ReadsTrades at hreads
      rw [hpage] at hreads
      refine hreads.none_left hcap fun entry hentry => ?_
      obtain ⟨se, hse, hnumber, hevent, -⟩ := mem_numberedFills.mp hentry
      rw [← hnumber]
      exact Step.run_fillsBehind h se hse entry.2 hevent

/--
The history of trades of a market can be paged exactly as long as the market has
a book and no trades.
-/
theorem tradesPaged_iff_untraded (h : Run (Step crypto) .new ops e)
    (hlimit : 1 ≤ limit) (marketId : String) :
    e.TradesPaged marketId limit ↔
      (e.books.get? marketId).isSome ∧
        ∀ fill ∈ fillsIn e.log, fill.marketId.value ≠ marketId := by
  constructor
  · intro hpaged
    obtain ⟨hbook, hpassed⟩ := ReadsTrades.passed h hlimit hpaged
    refine ⟨hbook, fun fill hfill hmarket => ?_⟩
    have hmem : fill ∈ (numberedFills marketId e.log).map Prod.snd := by
      rw [map_numberedFills]
      exact List.mem_filter.mpr ⟨hfill, by simpa [Fill.isIn] using hmarket⟩
    obtain ⟨entry, hentry, -⟩ := List.mem_map.mp hmem
    have hlt := hpassed entry hentry
    have hpos := numberedFills_pos h hentry
    omega
  · rintro ⟨hlisted, huntraded⟩
    obtain ⟨book, hbook⟩ := Option.isSome_iff_exists.mp hlisted
    have hnone : fillsOf marketId e.log = [] :=
      List.filter_eq_nil_iff.mpr fun fill hfill => by
        simpa [Fill.isIn] using huntraded fill hfill
    have hempty : numberedFills marketId e.log = [] := by
      rw [← List.map_eq_nil_iff, map_numberedFills, hnone]
    unfold Engine.TradesPaged allTrades
    rw [hnone]
    refine .stop ?_
    unfold Engine.TradesPage
    rw [getTrades_eq_pageOf hbook (show 0 < limit from hlimit), hempty]
    simp [pageOf]

theorem tradesPaged_iff_untraded_ask :
    (Sample.after [.addMarket Sample.market,
      .processOrder Sample.ask Sample.askEnv]).TradesPaged "BTC-USD" 100 := by
  refine (tradesPaged_iff_untraded (Sample.asked_run.mono fun _ _ _ h => h.1)
    (by decide) "BTC-USD").mpr ⟨by decide +kernel, ?_⟩
  rw [Sample.ask_log]
  simp [fillsIn, Event.fill?]

/-- The one trade of the session is on every page. -/
theorem not_tradesPaged_traded :
    ¬ ∀ (crypto : Crypto) (ops : List Op) (e : Engine),
      Run (Step crypto) .new ops e →
        ∀ (marketId : String) (limit : Nat), 1 ≤ limit →
          (e.books.get? marketId).isSome → e.TradesPaged marketId limit := by
  intro h
  have hpaged := h _ _ _ (Sample.traded_run.mono fun _ _ _ hstep => hstep.1)
    "BTC-USD" 100 (by decide) (by decide +kernel)
  have hpassed := (ReadsTrades.passed
    (Sample.traded_run.mono fun _ _ _ hstep => hstep.1) (by decide) hpaged).2
  have hentry : (3, makeFill Sample.bidOrder Sample.askOrder 100 4 2 2000) ∈
      numberedFills "BTC-USD" (Sample.after Sample.traded).log := by
    rw [Sample.traded_log.1]
    decide
  exact absurd (hpassed _ hentry) (by decide)

end Paged

end ClobApi
