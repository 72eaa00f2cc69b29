import ClobApi.Api.Orders
import ClobApi.Foundation.Paging

/-!
# GET /v1/trades/:market_id

The handler answers with the fills of a market from a sequence number on.  A
client that reads the whole history asks for page after page.
-/

namespace ClobApi

open Foundation

structure TradesQuery where
  limit : Nat := 100
  fromSeq : Nat := 0
  deriving DecidableEq, Repr

structure TradeResponse where
  sequenceId : Nat
  marketId : String
  priceTicks : UInt64
  sizeLots : UInt64
  takerOrderId : String
  takerTraderId : String
  makerOrderId : String
  makerTraderId : String
  executedAtMs : UInt64
  deriving DecidableEq, Repr

def TradeResponse.ofFill (fill : Fill) : TradeResponse where
  sequenceId := fill.sequenceId
  marketId := fill.marketId.value
  priceTicks := fill.priceTicks
  sizeLots := fill.sizeLots
  takerOrderId := fill.takerOrderId.value
  takerTraderId := fill.takerTraderId
  makerOrderId := fill.makerOrderId.value
  makerTraderId := fill.makerTraderId
  executedAtMs := fill.executedAtMs

namespace Engine

def getTrades (e : Engine) (marketId : String) (params : TradesQuery) :
    Except (Nat × ApiError) (List TradeResponse) :=
  let limit := min params.limit 1000
  if (e.bestPrices marketId).isNone then
    .error (404, ⟨"MARKET_NOT_FOUND", s!"market {marketId} not found"⟩)
  else
    .ok ((e.getFills marketId params.fromSeq limit).map .ofFill)

/-- One page of a client that asks for `limit` trades at a time. -/
def TradesPage (e : Engine) (marketId : String) (limit fromSeq : Nat)
    (trades : List TradeResponse) : Prop :=
  e.getTrades marketId ⟨limit, fromSeq⟩ = .ok trades

/-- A client that starts at `fromSeq` ends with these trades. -/
def ReadsTrades (e : Engine) (marketId : String) (limit fromSeq : Nat)
    (trades : List TradeResponse) : Prop :=
  Session (e.TradesPage marketId limit) TradeResponse.sequenceId fromSeq trades

end Engine

/-! ## The fills of a market -/

def numberedFills (marketId : String) (log : List SequencedEvent) :
    List (Nat × Fill) :=
  log.filterMap fun se =>
    (Engine.fillFrom marketId 0 se).map fun fill => (se.seqId, fill)

section Fills

variable {marketId : String} {log : List SequencedEvent}

theorem fillFrom_eq (marketId : String) (fromSeq : Nat) (se : SequencedEvent) :
    Engine.fillFrom marketId fromSeq se =
      if fromSeq ≤ se.seqId then Engine.fillFrom marketId 0 se else none := by
  unfold Engine.fillFrom
  by_cases hfrom : fromSeq ≤ se.seqId
  · have hnot : ¬ (se.seqId < fromSeq ∧ fromSeq > 0) := by omega
    simp [hnot, hfrom]
  · have hskip : se.seqId < fromSeq ∧ fromSeq > 0 := by omega
    simp [hskip, hfrom]

theorem filterMap_fillFrom (fromSeq : Nat) :
    log.filterMap (Engine.fillFrom marketId fromSeq) =
      ((numberedFills marketId log).filter fun entry =>
        fromSeq ≤ entry.1).map Prod.snd := by
  induction log with
  | nil => rfl
  | cons se log ih =>
      rw [List.filterMap_cons, fillFrom_eq, numberedFills, List.filterMap_cons]
      cases hfill : Engine.fillFrom marketId 0 se with
      | none => simpa [numberedFills] using ih
      | some fill =>
          by_cases hfrom : fromSeq ≤ se.seqId
          · simpa [hfrom, numberedFills] using ih
          · simpa [hfrom, numberedFills] using ih

theorem mem_numberedFills {number : Nat} {fill : Fill} :
    (number, fill) ∈ numberedFills marketId log ↔
      ∃ se ∈ log, se.seqId = number ∧ se.event = .fill fill ∧
        fill.marketId.value = marketId := by
  unfold numberedFills
  simp only [List.mem_filterMap, Option.map_eq_some_iff, Prod.mk.injEq,
    Engine.fillFrom, gt_iff_lt, Nat.lt_irrefl, and_false, if_false]
  refine exists_congr fun se => and_congr_right fun _ => ?_
  cases hev : se.event with
  | fill fill' =>
      simp only [Option.ite_none_right_eq_some, Option.some.injEq,
        Event.fill.injEq]
      constructor
      · rintro ⟨_, ⟨hmarket, rfl⟩, hnumber, rfl⟩
        exact ⟨hnumber, rfl, hmarket⟩
      · rintro ⟨hnumber, rfl, hmarket⟩
        exact ⟨_, ⟨hmarket, rfl⟩, hnumber, rfl⟩
  | _ => simp

end Fills

theorem getFills_eq_pageOf (e : Engine) (marketId : String) {limit : Nat}
    (hlimit : 0 < limit) (fromSeq : Nat) :
    e.getFills marketId fromSeq limit =
      pageOf Prod.fst Prod.snd (numberedFills marketId e.log) limit
        fromSeq := by
  unfold Engine.getFills pageOf
  rw [filterMap_fillFrom, if_neg (Nat.ne_of_gt hlimit), List.map_take]

theorem getTrades_eq_pageOf {e : Engine} {marketId : String}
    {book : OrderBook} (hbook : e.books.get? marketId = some book)
    {params : TradesQuery} (hlimit : 0 < params.limit) :
    e.getTrades marketId params =
      .ok (pageOf Prod.fst (fun entry => TradeResponse.ofFill entry.2)
        (numberedFills marketId e.log) (min params.limit 1000)
        params.fromSeq) := by
  have hcap : 0 < min params.limit 1000 := by omega
  unfold Engine.getTrades Engine.bestPrices
  simp only [hbook, Option.map_some, Option.isNone_some, Bool.false_eq_true,
    if_false]
  rw [getFills_eq_pageOf e marketId hcap, pageOf, pageOf, List.map_map]
  rfl

end ClobApi
