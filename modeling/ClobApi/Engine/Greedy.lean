import ClobApi.Engine.MatchRun
import ClobApi.Foundation.Greedy

/-!
# Greedy matching

The nested loops of `match_order` deal out the greedy allotment of the taker's
remaining lots along the resting orders that cross it, best price first and in
queue order within a price.
-/

namespace ClobApi

open Foundation

abbrev Share := Order × Nat

def Share.maker (share : Share) : Order := share.1

def Share.qty (share : Share) : UInt64 := UInt64.ofNat share.2

def Share.after (share : Share) (seqId : Nat) : Order :=
  applyFillTo share.maker share.qty seqId

def Share.fill (taker : Order) (seqId : Nat) (nowMs : UInt64)
    (share : Share) : Fill :=
  makeFill taker share.maker share.maker.priceTicks share.qty seqId nowMs

namespace MatchState

def take (seqId : Nat) (nowMs : UInt64) (st : MatchState) (share : Share) :
    MatchState where
  book := fillMaker st.book share.maker.orderId share.qty seqId
  taker := applyFillTo st.taker share.qty seqId
  fills := st.fills ++ [share.fill st.taker seqId nowMs]

def takeAll (seqId : Nat) (nowMs : UInt64) (st : MatchState)
    (shares : List Share) : MatchState :=
  shares.foldl (take seqId nowMs) st

def deal (seqId : Nat) (nowMs : UInt64) (st : MatchState)
    (out : Allotment Order) : MatchState :=
  let st := st.takeAll seqId nowMs out.shares
  if out.blocked then { st with taker := cancelTaker st.taker seqId } else st

end MatchState

/-- Lots that a trader wants, shared out along resting orders. -/
def allotTo (traderId : String) (makers : List Order) (wanted : Nat) :
    Allotment Order :=
  greedy (fun maker => maker.remainingSizeLots.toNat)
    (fun maker => maker.traderId == traderId) makers wanted

def Order.allot (taker : Order) (makers : List Order) : Allotment Order :=
  allotTo taker.traderId makers taker.remainingSizeLots.toNat

namespace OrderBook

def restingAt (book : OrderBook) (side : Side) (price : UInt64) : List Order :=
  (book.ordersAtPrice price side).filterMap book.get

/-- The resting orders that cross the taker, best first. -/
def crossing (book : OrderBook) (taker : Order) : List Order :=
  ((book.pricesByPriority taker.side.opposite).filter fun price =>
    taker.Crosses price).flatMap (book.restingAt taker.side.opposite)

/-- The makers are stored as they are, rest, and are different orders. -/
structure Offers (book : OrderBook) (makers : List Order) : Prop where
  stored : ∀ maker ∈ makers, book.get maker.orderId = some maker
  live : ∀ maker ∈ makers, maker.isClosed = false
  distinct : (makers.map Order.orderId).Nodup

theorem Offers.mono {book : OrderBook} {makers makers' : List Order}
    (h : book.Offers makers) (hsub : makers'.Sublist makers) :
    book.Offers makers' where
  stored maker hmaker := h.stored maker (hsub.subset hmaker)
  live maker hmaker := h.live maker (hsub.subset hmaker)
  distinct := h.distinct.sublist (hsub.map _)

end OrderBook

/-! ## Taking shares -/

section Take

variable {seqId : Nat} {nowMs : UInt64} {st : MatchState} {share : Share}
  {shares : List Share}

theorem get_take (id : OrderId) :
    (st.take seqId nowMs share).book.get id =
      if id = share.maker.orderId then
        (st.book.get id).map fun maker => applyFillTo maker share.qty seqId
      else st.book.get id := by
  unfold MatchState.take
  rw [OrderBook.fillMaker_eq_settle, OrderBook.get_settle]

theorem ordersAtPrice_take (seqId : Nat) (nowMs : UInt64)
    (hget : st.book.get share.maker.orderId = some share.maker)
    (price : UInt64) (side : Side) :
    (st.take seqId nowMs share).book.ordersAtPrice price side =
      if (share.after seqId).isClosed = true ∧ side = share.maker.side ∧
          price = share.maker.priceTicks then
        (st.book.ordersAtPrice price side).filter fun id =>
          id ≠ share.maker.orderId
      else st.book.ordersAtPrice price side :=
  ordersAtPrice_fillMaker hget share.qty seqId price side

theorem get_takeAll_of_not_mem {id : OrderId}
    (h : ∀ share ∈ shares, share.maker.orderId ≠ id) :
    (st.takeAll seqId nowMs shares).book.get id = st.book.get id := by
  induction shares generalizing st with
  | nil => rfl
  | cons share shares ih =>
      have hne : id ≠ share.maker.orderId := (h share (.head _)).symm
      have hrest :
          ((st.take seqId nowMs share).takeAll seqId nowMs shares).book.get id =
            (st.take seqId nowMs share).book.get id :=
        ih fun other hother => h other (.tail _ hother)
      rw [get_take, if_neg hne] at hrest
      exact hrest

theorem offers_take (seqId : Nat) (nowMs : UInt64) {makers : List Order}
    (h : st.book.Offers (share.maker :: makers)) :
    (st.take seqId nowMs share).book.Offers makers := by
  have hdistinct := h.distinct
  rw [List.map_cons, List.nodup_cons] at hdistinct
  refine ⟨fun other hother => ?_, fun other hother =>
    h.live other (.tail _ hother), hdistinct.2⟩
  have hne : other.orderId ≠ share.maker.orderId := fun heq =>
    hdistinct.1 (heq ▸ List.mem_map_of_mem hother)
  rw [get_take, if_neg hne]
  exact h.stored other (.tail _ hother)

theorem get_takeAll_of_mem (h : st.book.Offers (shares.map Share.maker))
    (hshare : share ∈ shares) :
    (st.takeAll seqId nowMs shares).book.get share.maker.orderId =
      some (share.after seqId) := by
  induction shares generalizing st with
  | nil => cases hshare
  | cons first shares ih =>
      have hrest := offers_take seqId nowMs h
      rcases List.mem_cons.mp hshare with rfl | hmem
      · have hdistinct := h.distinct
        rw [List.map_cons, List.map_cons, List.nodup_cons] at hdistinct
        have hlater : ∀ other ∈ shares,
            other.maker.orderId ≠ share.maker.orderId := by
          intro other hother heq
          refine hdistinct.1 (List.mem_map.mpr ⟨other.maker, ?_, heq⟩)
          exact List.mem_map_of_mem hother
        have hstored := h.stored share.maker (.head _)
        have hkeep :
            ((st.take seqId nowMs share).takeAll seqId nowMs shares).book.get
                share.maker.orderId =
              (st.take seqId nowMs share).book.get share.maker.orderId :=
          get_takeAll_of_not_mem hlater
        rw [get_take, if_pos rfl, hstored] at hkeep
        exact hkeep
      · exact ih hrest hmem

def emptied (shares : List Share) (seqId : Nat) (price : UInt64) (side : Side)
    (id : OrderId) : Bool :=
  shares.any fun share =>
    share.maker.orderId = id ∧ share.maker.side = side ∧
      share.maker.priceTicks = price ∧ (share.after seqId).isClosed = true

theorem ordersAtPrice_takeAll (h : st.book.Offers (shares.map Share.maker))
    (price : UInt64) (side : Side) :
    (st.takeAll seqId nowMs shares).book.ordersAtPrice price side =
      (st.book.ordersAtPrice price side).filter fun id =>
        !emptied shares seqId price side id := by
  induction shares generalizing st with
  | nil => simp [MatchState.takeAll, emptied]
  | cons first shares ih =>
      have hrest := ih (offers_take seqId nowMs h)
      have hfirst := ordersAtPrice_take seqId nowMs
        (h.stored first.maker (.head _)) price side
      have hall : (st.takeAll seqId nowMs (first :: shares)) =
          (st.take seqId nowMs first).takeAll seqId nowMs shares := rfl
      rw [hall, hrest, hfirst]
      split
      · next hclosed =>
          rw [List.filter_filter]
          refine List.filter_congr fun id _ => ?_
          grind [emptied]
      · next hopen =>
          refine List.filter_congr fun id _ => ?_
          grind [emptied]

end Take

/-! ## The inner loop -/

section Level

variable {seqId : Nat} {nowMs : UInt64} {st : MatchState}

/-- What the greedy walk takes from the first maker. -/
def MatchState.shareOf (st : MatchState) (maker : Order) : Share :=
  (maker,
    min st.taker.remainingSizeLots.toNat maker.remainingSizeLots.toNat)

theorem fillQty_eq_share (st : MatchState) (maker : Order) :
    st.fillQty maker = (st.shareOf maker).qty := by
  rw [MatchState.fillQty_eq_ite]
  unfold MatchState.shareOf Share.qty
  split
  · next h =>
      rw [UInt64.le_iff_toNat_le] at h
      rw [Nat.min_eq_left h, UInt64.ofNat_toNat]
  · next h =>
      rw [UInt64.le_iff_toNat_le] at h
      rw [Nat.min_eq_right (by omega), UInt64.ofNat_toNat]

theorem fillAgainst_eq_take (st : MatchState) (maker : Order) :
    st.fillAgainst maker seqId nowMs =
      st.take seqId nowMs (st.shareOf maker) := by
  unfold MatchState.fillAgainst
  rw [fillQty_eq_share]
  rfl

theorem matchMaker_eq_take {maker : Order} {price : UInt64}
    (hstored : st.book.get maker.orderId = some maker)
    (hlive : maker.isClosed = false) (hprice : maker.priceTicks = price)
    (hactive : st.taker.remainingSizeLots ≠ 0)
    (htrader : maker.traderId ≠ st.taker.traderId) :
    matchMaker price seqId nowMs st maker.orderId =
      .yield (st.take seqId nowMs (st.shareOf maker)) := by
  rw [← fillAgainst_eq_take, ← hprice]
  simp only [matchMaker, hactive, if_false, hstored, hlive, htrader,
    Bool.false_eq_true]
  rfl

section Taker

variable (hle : st.taker.filledSizeLots ≤ st.taker.origSizeLots)

include hle

theorem filled_le_take (maker : Order) :
    (st.take seqId nowMs (st.shareOf maker)).taker.filledSizeLots ≤
      (st.take seqId nowMs (st.shareOf maker)).taker.origSizeLots := by
  rw [← fillAgainst_eq_take]
  exact applyFillTo_filled_le seqId hle MatchState.fillQty_le_taker

theorem remaining_take (maker : Order) :
    (st.take seqId nowMs
        (st.shareOf maker)).taker.remainingSizeLots.toNat =
      st.taker.remainingSizeLots.toNat - maker.remainingSizeLots.toNat := by
  rw [← fillAgainst_eq_take]
  refine (applyFillTo_remaining hle MatchState.fillQty_le_taker).trans ?_
  rw [MatchState.fillQty_eq_ite]
  split
  · next h =>
      rw [UInt64.le_iff_toNat_le] at h
      omega
  · rfl

theorem allot_cons (seqId : Nat) (nowMs : UInt64) {maker : Order}
    (makers : List Order)
    (hactive : st.taker.remainingSizeLots ≠ 0)
    (htrader : maker.traderId ≠ st.taker.traderId) :
    st.taker.allot (maker :: makers) =
      let rest :=
        (st.take seqId nowMs (st.shareOf maker)).taker.allot makers
      { rest with shares := st.shareOf maker :: rest.shares } := by
  have hwanted : st.taker.remainingSizeLots.toNat ≠ 0 := by
    rwa [Ne, ← UInt64.toNat_zero, UInt64.toNat_inj]
  have hhalts : ¬ (maker.traderId == st.taker.traderId) = true := by
    simpa using htrader
  unfold Order.allot allotTo
  rw [greedy, if_neg hwanted, if_neg hhalts, remaining_take hle]
  rfl

end Taker

theorem forLoop_matchMaker (price : UInt64) (makers : List Order)
    (hoffers : st.book.Offers makers)
    (hprice : ∀ maker ∈ makers, maker.priceTicks = price)
    (hle : st.taker.filledSizeLots ≤ st.taker.origSizeLots) :
    forLoop (matchMaker price seqId nowMs) (makers.map Order.orderId) st =
      st.deal seqId nowMs (st.taker.allot makers) := by
  induction makers generalizing st with
  | nil => rfl
  | cons maker makers ih =>
      have hstored := hoffers.stored maker (.head _)
      have hlive := hoffers.live maker (.head _)
      rw [List.map_cons, forLoop]
      by_cases hfull : st.taker.remainingSizeLots = 0
      · simp [matchMaker, hfull, Order.allot, allotTo, MatchState.deal,
          MatchState.takeAll]
      by_cases htrader : maker.traderId = st.taker.traderId
      · have hwanted : st.taker.remainingSizeLots.toNat ≠ 0 := by
          rwa [Ne, ← UInt64.toNat_zero, UInt64.toNat_inj]
        simp [matchMaker, hfull, hstored, hlive, htrader, Order.allot, allotTo,
          greedy, hwanted, MatchState.deal, MatchState.takeAll]
      · rw [matchMaker_eq_take hstored hlive (hprice maker (.head _)) hfull
          htrader, allot_cons hle seqId nowMs makers hfull htrader]
        exact ih (offers_take seqId nowMs hoffers)
          (fun other hother => hprice other (.tail _ hother))
          (filled_le_take hle maker)

end Level

/-! ## The taker -/

/-- A taker that wants something is open, and it is not overfilled. -/
structure MatchState.Ready (st : MatchState) : Prop where
  filled_le : st.taker.filledSizeLots ≤ st.taker.origSizeLots
  live : st.taker.remainingSizeLots ≠ 0 → st.taker.isClosed = false

section Taker

variable {seqId : Nat} {nowMs : UInt64}

theorem MatchState.Ready.take {st : MatchState} (h : st.Ready)
    (maker : Order) : (st.take seqId nowMs (st.shareOf maker)).Ready where
  filled_le := filled_le_take h.filled_le maker
  live := by
    intro hactive
    rw [Bool.eq_false_iff, Ne]
    exact fun hclosed => hactive (applyFillTo_isClosed_iff.mp hclosed)

theorem allot_induction (seqId : Nat) (nowMs : UInt64)
    {motive : MatchState → List Order → Prop}
    (hstop : ∀ st makers, (st.taker.allot makers).shares = [] →
      (st.taker.allot makers).wanted = st.taker.remainingSizeLots.toNat →
        motive st makers)
    (htake : ∀ (st : MatchState) (maker : Order) (makers : List Order),
      st.Ready → st.taker.remainingSizeLots ≠ 0 →
        maker.traderId ≠ st.taker.traderId →
          motive (st.take seqId nowMs (st.shareOf maker)) makers →
            motive st (maker :: makers))
    (st : MatchState) (makers : List Order) (h : st.Ready) :
    motive st makers := by
  induction makers generalizing st with
  | nil => exact hstop st [] rfl rfl
  | cons maker makers ih =>
      by_cases hfull : st.taker.remainingSizeLots = 0
      · refine hstop st _ ?_ ?_ <;> simp [Order.allot, allotTo, hfull]
      have hwanted : st.taker.remainingSizeLots.toNat ≠ 0 := by
        rwa [Ne, ← UInt64.toNat_zero, UInt64.toNat_inj]
      by_cases htrader : maker.traderId = st.taker.traderId
      · refine hstop st _ ?_ ?_ <;>
          simp [Order.allot, allotTo, greedy, htrader, hwanted]
      · exact htake st maker makers h hfull htrader (ih _ (h.take maker))

/-- What the shares make of the taker. -/
structure TakerAfter (seqId : Nat) (taker : Order) (out : Allotment Order)
    (st : MatchState) : Prop where
  ready : st.Ready
  terms : st.taker.terms = taker.terms
  wanted : st.taker.remainingSizeLots.toNat = out.wanted
  status : st.taker.status =
    if out.shares = [] then taker.status
    else if out.wanted = 0 then .filled else .partiallyFilled
  lastUpdate : st.taker.lastUpdateSequence =
    if out.shares = [] then taker.lastUpdateSequence else seqId

theorem takeAll_taker (seqId : Nat) (nowMs : UInt64) (st : MatchState)
    (makers : List Order)
    (h : st.Ready) :
    TakerAfter seqId st.taker (st.taker.allot makers)
      (st.takeAll seqId nowMs (st.taker.allot makers).shares) := by
  refine allot_induction seqId nowMs
    (motive := fun st makers => st.Ready →
      TakerAfter seqId st.taker (st.taker.allot makers)
        (st.takeAll seqId nowMs (st.taker.allot makers).shares))
    ?_ ?_ st makers h h
  · intro st makers hshares hwanted hready
    rw [hshares]
    exact ⟨hready, rfl, hwanted.symm, by simp [hshares, MatchState.takeAll],
      by simp [hshares, MatchState.takeAll]⟩
  · intro st maker makers hready hactive htrader ih _
    rw [allot_cons hready.filled_le seqId nowMs makers hactive htrader]
    have hrest := ih (hready.take maker)
    refine ⟨hrest.ready, hrest.terms, hrest.wanted, ?_, ?_⟩
    · refine hrest.status.trans ?_
      by_cases hnone :
          ((st.take seqId nowMs (st.shareOf maker)).taker.allot makers).shares =
            []
      · -- the share is the last one: its own fill sets the status
        have hwanted := hrest.wanted
        rw [hnone] at hwanted
        have hlast : (st.take seqId nowMs (st.shareOf maker)).taker.status =
            if (st.take seqId nowMs (st.shareOf maker)).taker.remainingSizeLots
                = 0 then .filled else .partiallyFilled :=
          applyFillTo_status _ _ _
        simp only [hnone, if_true]
        rw [hlast, ← hwanted, if_neg (List.cons_ne_nil _ _)]
        refine if_congr ?_ rfl rfl
        rw [← UInt64.toNat_inj, UInt64.toNat_zero]
        rfl
      · simp [hnone]
    · refine hrest.lastUpdate.trans ?_
      have hlast :
          (st.take seqId nowMs (st.shareOf maker)).taker.lastUpdateSequence =
            seqId := rfl
      rw [hlast, if_neg (List.cons_ne_nil _ _)]
      split <;> rfl

end Taker

/-! ## The outer loop -/

section Levels

variable {seqId : Nat} {nowMs : UInt64} {makerSide : Side}

theorem allot_prefix (taker : Order) (makers : List Order) :
    (taker.allot makers).shares.map Share.maker <+: makers :=
  greedy_prefix makers _

theorem allot_append (taker : Order) (makers makers' : List Order) :
    taker.allot (makers ++ makers') =
      if (taker.allot makers).blocked then taker.allot makers
      else
        let rest := allotTo taker.traderId makers' (taker.allot makers).wanted
        { rest with shares := (taker.allot makers).shares ++ rest.shares } :=
  greedy_append makers makers' _

/-- The queues that the levels still to come find are the makers' own. -/
structure LevelsAhead (makerSide : Side) (makersAt : UInt64 → List Order)
    (prices : List UInt64) (st : MatchState) : Prop where
  offers : st.book.Offers (prices.flatMap makersAt)
  queue : ∀ price ∈ prices, st.book.ordersAtPrice price makerSide =
    (makersAt price).map Order.orderId
  priced : ∀ price ∈ prices, ∀ maker ∈ makersAt price,
    maker.priceTicks = price
  nodup : prices.Nodup

theorem deal_book (st : MatchState) (out : Allotment Order) :
    (st.deal seqId nowMs out).book =
      (st.takeAll seqId nowMs out.shares).book := by
  unfold MatchState.deal
  dsimp only
  split <;> rfl

theorem LevelsAhead.deal (seqId : Nat) (nowMs : UInt64)
    {makersAt : UInt64 → List Order} {price : UInt64} {prices : List UInt64}
    {st : MatchState}
    (h : LevelsAhead makerSide makersAt (price :: prices) st) :
    LevelsAhead makerSide makersAt prices
      (st.deal seqId nowMs (st.taker.allot (makersAt price))) := by
  have hnodup := List.nodup_cons.mp h.nodup
  have hserved := allot_prefix st.taker (makersAt price)
  have hoffers := h.offers
  rw [List.flatMap_cons] at hoffers
  have hshares : st.book.Offers
      ((st.taker.allot (makersAt price)).shares.map Share.maker) :=
    hoffers.mono (hserved.sublist.trans (List.sublist_append_left _ _))
  have hmaker : ∀ share : Share,
      share ∈ (st.taker.allot (makersAt price)).shares →
        share.maker ∈ makersAt price := fun share hshare =>
    hserved.subset (List.mem_map_of_mem hshare)
  refine ⟨⟨?_, ?_, ?_⟩, ?_, ?_, hnodup.2⟩
  · intro maker hmem
    have hdistinct := hoffers.distinct
    rw [List.map_append, List.nodup_append] at hdistinct
    rw [deal_book, get_takeAll_of_not_mem]
    · exact hoffers.stored maker (List.mem_append_right _ hmem)
    · intro share hshare heq
      exact hdistinct.2.2 _ (List.mem_map_of_mem (hmaker share hshare)) _
        (List.mem_map_of_mem hmem) heq
  · exact fun maker hmem => hoffers.live maker (List.mem_append_right _ hmem)
  · have hdistinct := hoffers.distinct
    rw [List.map_append, List.nodup_append] at hdistinct
    exact hdistinct.2.1
  · intro other hother
    rw [deal_book, ordersAtPrice_takeAll hshares,
      ← h.queue other (.tail _ hother)]
    refine List.filter_eq_self.mpr fun id _ => ?_
    -- the shares come from another price
    simp only [emptied, Bool.not_eq_true', List.any_eq_false, decide_eq_true_eq]
    rintro share hshare ⟨-, -, hsame, -⟩
    rw [h.priced price (.head _) _ (hmaker share hshare)] at hsame
    exact hnodup.1 (hsame ▸ hother)
  · exact fun other hother => h.priced other (.tail _ hother)

theorem forLoop_matchLevel_closed (prices : List UInt64) {st : MatchState}
    (hclosed : st.taker.isClosed = true) :
    forLoop (matchLevel makerSide seqId nowMs) prices st = st := by
  cases prices with
  | nil => rfl
  | cons price prices =>
      rw [forLoop]
      by_cases hfull : st.taker.remainingSizeLots = 0
      · simp [matchLevel, hfull]
      · simp [matchLevel, hfull, hclosed]

/-- The loop over the levels deals out the allotment along all of them. -/
theorem forLoop_matchLevel (makersAt : UInt64 → List Order)
    (prices : List UInt64) (st : MatchState) (hready : st.Ready)
    (h : LevelsAhead makerSide makersAt prices st) :
    forLoop (matchLevel makerSide seqId nowMs) prices st =
      st.deal seqId nowMs (st.taker.allot (prices.flatMap makersAt)) := by
  induction prices generalizing st with
  | nil => rfl
  | cons price prices ih =>
      rw [forLoop]
      by_cases hfull : st.taker.remainingSizeLots = 0
      · simp [matchLevel, hfull, Order.allot, allotTo, MatchState.deal,
          MatchState.takeAll]
      have hlevel : matchLevel makerSide seqId nowMs st price =
          .yield (st.deal seqId nowMs (st.taker.allot (makersAt price))) := by
        have hoffers := h.offers.mono (List.sublist_append_left _ _)
        simp only [matchLevel, hfull, if_false, hready.live hfull,
          Bool.false_eq_true, matchAtPriceLevel, h.queue price (.head _)]
        rw [forLoop_matchMaker price _ hoffers (h.priced price (.head _))
          hready.filled_le]
      rw [hlevel, List.flatMap_cons, allot_append]
      have hafter := takeAll_taker seqId nowMs st (makersAt price) hready
      by_cases hblocked : (st.taker.allot (makersAt price)).blocked = true
      · rw [if_pos hblocked]
        refine forLoop_matchLevel_closed prices ?_
        simp [MatchState.deal, hblocked, cancelTaker, Order.isClosed,
          OrderStatus.isClosed]
      · rw [if_neg hblocked]
        have hdeal : st.deal seqId nowMs (st.taker.allot (makersAt price)) =
            st.takeAll seqId nowMs
              (st.taker.allot (makersAt price)).shares := by
          simp [MatchState.deal, hblocked]
        have hahead := h.deal seqId nowMs
        rw [hdeal] at hahead ⊢
        have htrader : (st.takeAll seqId nowMs
            (st.taker.allot (makersAt price)).shares).taker.traderId =
              st.taker.traderId := by
          simpa using congrArg Order.traderId hafter.terms
        refine (ih _ hafter.ready hahead).trans ?_
        have hrest : (st.takeAll seqId nowMs
            (st.taker.allot (makersAt price)).shares).taker.allot
              (prices.flatMap makersAt) =
            allotTo st.taker.traderId (prices.flatMap makersAt)
              (st.taker.allot (makersAt price)).wanted := by
          rw [← htrader, ← hafter.wanted]
          rfl
        rw [hrest]
        simp only [MatchState.deal, MatchState.takeAll, List.foldl_append]

end Levels

/-! ## The orders that cross a taker -/

section Crossing

variable {book : OrderBook} {taker maker : Order} {side : Side}
  {price : UInt64}

theorem OrderBook.Valid.mem_restingAt (hvalid : book.Valid) :
    maker ∈ book.restingAt side price ↔
      book.get maker.orderId = some maker ∧ maker.side = side ∧
        maker.priceTicks = price ∧ maker.isClosed = false := by
  unfold OrderBook.restingAt
  rw [List.mem_filterMap]
  constructor
  · rintro ⟨id, hmem, hget⟩
    obtain ⟨order, hget', hside, hprice, hopen⟩ := hvalid.queued_iff.mp hmem
    rw [hget] at hget'
    cases hget'
    rw [hvalid.key hget]
    exact ⟨hget, hside, hprice, hopen⟩
  · rintro ⟨hget, hside, hprice, hopen⟩
    exact ⟨maker.orderId,
      hvalid.queued_iff.mpr ⟨maker, hget, hside, hprice, hopen⟩, hget⟩

theorem OrderBook.Valid.map_restingAt (hvalid : book.Valid) (side : Side)
    (price : UInt64) :
    (book.restingAt side price).map Order.orderId =
      book.ordersAtPrice price side := by
  have hids : ∀ ids : List OrderId,
      (∀ id ∈ ids, ∃ order, book.get id = some order) →
        (ids.filterMap book.get).map Order.orderId = ids := by
    intro ids hstored
    induction ids with
    | nil => rfl
    | cons id ids ih =>
        obtain ⟨order, hget⟩ := hstored id (.head _)
        rw [List.filterMap_cons, hget, List.map_cons, hvalid.key hget,
          ih fun id' hid' => hstored id' (.tail _ hid')]
  refine hids _ fun id hid => ?_
  obtain ⟨order, hget, -⟩ := hvalid.queued_iff.mp hid
  exact ⟨order, hget⟩

theorem Order.Precedes.asymm {order order' : Order}
    (h : order.Precedes side order') : ¬ order'.Precedes side order := by
  unfold Order.Precedes at h ⊢
  rw [Prod.lex_def] at h ⊢
  cases side <;> simp only [Side.Better] at h ⊢ <;> grind

theorem OrderBook.Valid.restingAt_sorted (hvalid : book.Valid)
    {prices : List UInt64} (hprices : prices.Pairwise side.Better) :
    (prices.flatMap (book.restingAt side)).Pairwise
      (Order.Precedes side) := by
  rw [List.pairwise_flatMap]
  refine ⟨fun price _ => ?_, ?_⟩
  · have hfifo := hvalid.fifo price side
    rw [← hvalid.map_restingAt, List.pairwise_map] at hfifo
    refine hfifo.imp_of_mem fun hmem hmem' hlt => ?_
    obtain ⟨hget, -, hprice, -⟩ := hvalid.mem_restingAt.mp hmem
    obtain ⟨hget', -, hprice', -⟩ := hvalid.mem_restingAt.mp hmem'
    rw [OrderBook.createdOf_eq hget, OrderBook.createdOf_eq hget'] at hlt
    unfold Order.Precedes
    rw [hprice, hprice']
    exact .right _ hlt
  · refine hprices.imp fun hbetter => ?_
    intro maker hmem maker' hmem'
    obtain ⟨-, -, hprice, -⟩ := hvalid.mem_restingAt.mp hmem
    obtain ⟨-, -, hprice', -⟩ := hvalid.mem_restingAt.mp hmem'
    unfold Order.Precedes
    rw [hprice, hprice']
    exact .left _ _ hbetter

theorem OrderBook.Valid.offers_restingAt (hvalid : book.Valid)
    {prices : List UInt64} (hprices : prices.Pairwise side.Better) :
    book.Offers (prices.flatMap (book.restingAt side)) := by
  have hresting : ∀ maker ∈ prices.flatMap (book.restingAt side),
      book.get maker.orderId = some maker ∧ maker.isClosed = false := by
    intro maker hmaker
    obtain ⟨price, -, hmem⟩ := List.mem_flatMap.mp hmaker
    obtain ⟨hget, -, -, hopen⟩ := hvalid.mem_restingAt.mp hmem
    exact ⟨hget, hopen⟩
  refine ⟨fun maker hmem => (hresting maker hmem).1,
    fun maker hmem => (hresting maker hmem).2, ?_⟩
  unfold List.Nodup
  rw [List.pairwise_map]
  refine (hvalid.restingAt_sorted hprices).imp_of_mem ?_
  intro maker maker' hmem hmem' hprecedes hsame
  have hget := (hresting maker hmem).1
  rw [hsame, (hresting maker' hmem').1] at hget
  obtain rfl := Option.some.inj hget
  exact hprecedes.asymm hprecedes

theorem crossablePrices_eq_filter (book : OrderBook) (taker : Order) :
    crossablePrices book taker =
      (book.pricesByPriority taker.side.opposite).filter fun price =>
        taker.Crosses price := by
  rw [crossablePrices_eq]
  have hsorted := book.pricesByPriority_sorted taker.side.opposite
  generalize book.pricesByPriority taker.side.opposite = prices at hsorted
  induction prices with
  | nil => rfl
  | cons price prices ih =>
      rw [List.pairwise_cons] at hsorted
      by_cases hcross : taker.Crosses price
      · rw [List.takeWhile_cons_of_pos (by simpa using hcross),
          List.filter_cons_of_pos (by simpa using hcross), ih hsorted.2]
      · rw [List.takeWhile_cons_of_neg (by simpa using hcross),
          List.filter_cons_of_neg (by simpa using hcross)]
        refine (List.filter_eq_nil_iff.mpr fun later hlater => ?_).symm
        rw [decide_eq_true_eq]
        exact fun h => hcross (h.of_better (hsorted.1 later hlater))

theorem OrderBook.crossing_eq (book : OrderBook) (taker : Order) :
    book.crossing taker = (crossablePrices book taker).flatMap
      (book.restingAt taker.side.opposite) := by
  rw [crossablePrices_eq_filter]
  rfl

theorem OrderBook.Valid.mem_crossing (hvalid : book.Valid) :
    maker ∈ book.crossing taker ↔
      book.Resting taker.side.opposite maker ∧
        taker.Crosses maker.priceTicks := by
  rw [OrderBook.crossing_eq, List.mem_flatMap, hvalid.resting_iff]
  constructor
  · rintro ⟨price, hprice, hmem⟩
    obtain ⟨hget, hside, rfl, hopen⟩ := hvalid.mem_restingAt.mp hmem
    exact ⟨⟨hget, hside, hopen⟩,
      ((mem_crossablePrices hvalid taker _).mp hprice).2⟩
  · rintro ⟨⟨hget, hside, hopen⟩, hcross⟩
    have hqueued := hvalid.queued_iff.mpr ⟨maker, hget, hside, rfl, hopen⟩
    exact ⟨maker.priceTicks,
      (mem_crossablePrices hvalid taker _).mpr
        ⟨List.ne_nil_of_mem hqueued, hcross⟩,
      hvalid.mem_restingAt.mpr ⟨hget, hside, rfl, hopen⟩⟩

theorem OrderBook.Valid.crossing_sorted (hvalid : book.Valid)
    (taker : Order) :
    (book.crossing taker).Pairwise (Order.Precedes taker.side.opposite) := by
  rw [OrderBook.crossing_eq]
  exact hvalid.restingAt_sorted (crossablePrices_sorted book taker)

theorem Side.Better.irrefl (side : Side) (price : UInt64) :
    ¬ side.Better price price := by
  cases side <;> exact UInt64.lt_irrefl price

theorem OrderBook.Valid.levelsAhead (hvalid : book.Valid) (taker : Order)
    (fills : List Fill) :
    LevelsAhead taker.side.opposite (book.restingAt taker.side.opposite)
      (crossablePrices book taker) ⟨book, taker, fills⟩ where
  offers := hvalid.offers_restingAt (crossablePrices_sorted book taker)
  queue price _ := (hvalid.map_restingAt _ price).symm
  priced price _ maker hmem := (hvalid.mem_restingAt.mp hmem).2.2.1
  nodup := (crossablePrices_sorted book taker).imp fun hbetter heq => by
    subst heq
    exact Side.Better.irrefl _ _ hbetter

theorem matchOrder_eq_deal (hvalid : book.Valid)
    (hready : (MatchState.mk book taker []).Ready) (seqId : Nat)
    (nowMs : UInt64) :
    matchOrder book taker seqId nowMs =
      (MatchState.mk book taker []).deal seqId nowMs
        (taker.allot (book.crossing taker)) := by
  rw [matchOrder_eq, OrderBook.crossing_eq]
  exact forLoop_matchLevel _ _ _ hready (hvalid.levelsAhead taker [])

end Crossing

end ClobApi
