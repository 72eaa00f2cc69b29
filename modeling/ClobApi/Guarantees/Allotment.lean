import ClobApi.Engine.Greedy
import ClobApi.Engine.Runs

/-!
# What one call of `match_order` does

The fills are the greedy allotment of what the taker wants along the resting
orders that cross it; only the makers that were used change, and only the full
ones leave their queue.
-/

namespace ClobApi

open Foundation

/-- The shares are open orders of a valid book, and no order gives too much. -/
structure OrderBook.Gives (book : OrderBook) (shares : List Share) : Prop where
  offers : book.Offers (shares.map Share.maker)
  le : ∀ share ∈ shares, share.2 ≤ share.maker.remainingSizeLots.toNat
  pos : ∀ share ∈ shares, 0 < share.2

section Gives

variable {book : OrderBook} {taker : Order} {shares : List Share}
  {share : Share} {seqId : Nat} {nowMs : UInt64}

theorem OrderBook.Valid.gives (hvalid : book.Valid) (taker : Order) :
    book.Gives (taker.allot (book.crossing taker)).shares := by
  have hserved := allot_prefix taker (book.crossing taker)
  have hoffers := (hvalid.levelsAhead taker []).offers
  rw [← OrderBook.crossing_eq] at hoffers
  have hgives := hoffers.mono hserved.sublist
  refine ⟨hgives, fun share hshare => ?_, fun share hshare => ?_⟩
  · exact (greedy_share _ _ share hshare).1
  · have hmem : share.maker ∈
        (taker.allot (book.crossing taker)).shares.map Share.maker :=
      List.mem_map_of_mem hshare
    have hremaining := (hvalid.consistent
      (hgives.stored _ hmem)).remaining_ne_zero (hgives.live _ hmem)
    rw [Ne, ← UInt64.toNat_inj, UInt64.toNat_zero] at hremaining
    exact (greedy_share _ _ share hshare).2.2 (Nat.pos_of_ne_zero hremaining)

theorem OrderBook.Gives.qty_toNat (h : book.Gives shares)
    (hshare : share ∈ shares) : share.qty.toNat = share.2 := by
  have hle := h.le share hshare
  have hlt := share.maker.remainingSizeLots.toNat_lt
  exact UInt64.toNat_ofNat_of_lt' (by
    have hsize : UInt64.size = 2 ^ 64 := rfl
    omega)

theorem OrderBook.Gives.after (h : book.Gives shares) (hvalid : book.Valid)
    (hshare : share ∈ shares) :
    (share.after seqId).terms = share.maker.terms ∧
      (share.after seqId).filledSizeLots.toNat =
        share.maker.filledSizeLots.toNat + share.2 ∧
      (share.after seqId).status =
        (if share.2 = share.maker.remainingSizeLots.toNat then .filled
          else .partiallyFilled) := by
  have hmem : share.maker ∈ shares.map Share.maker :=
    List.mem_map_of_mem hshare
  have hle := (hvalid.consistent (h.offers.stored _ hmem)).filled_le
  have hqty := h.qty_toNat hshare
  have hqty_le : share.qty ≤ share.maker.remainingSizeLots := by
    rw [UInt64.le_iff_toNat_le, hqty]
    exact h.le share hshare
  refine ⟨rfl, ?_, ?_⟩
  · rw [← hqty]
    exact filled_add_toNat hle hqty_le
  · refine (applyFillTo_status _ _ _).trans (if_congr ?_ rfl rfl)
    have hremaining :
        (applyFillTo share.maker share.qty seqId).remainingSizeLots.toNat =
          share.maker.remainingSizeLots.toNat - share.qty.toNat :=
      applyFillTo_remaining hle hqty_le
    have hshare_le := h.le share hshare
    rw [← UInt64.toNat_inj, hremaining, UInt64.toNat_zero, hqty]
    omega

theorem OrderBook.Gives.isClosed_after (h : book.Gives shares)
    (hvalid : book.Valid) (hshare : share ∈ shares) :
    (share.after seqId).isClosed = true ↔
      share.2 = share.maker.remainingSizeLots.toNat := by
  unfold Order.isClosed
  rw [(h.after hvalid hshare).2.2]
  split
  · next hfull => simp [hfull, OrderStatus.isClosed]
  · next hpart => simp [hpart, OrderStatus.isClosed]

theorem OrderBook.Gives.take {st : MatchState}
    (h : st.book.Gives (share :: shares)) :
    (st.take seqId nowMs share).book.Gives shares where
  offers := offers_take seqId nowMs h.offers
  le other hother := h.le other (.tail _ hother)
  pos other hother := h.pos other (.tail _ hother)

theorem OrderBook.Gives.takeAll_valid {st : MatchState}
    (h : st.book.Gives shares) (hvalid : st.book.Valid) :
    (st.takeAll seqId nowMs shares).book.Valid := by
  induction shares generalizing st with
  | nil => exact hvalid
  | cons share shares ih =>
      have hmem : share.maker ∈ (share :: shares).map Share.maker := .head _
      have hqty := h.qty_toNat (.head _)
      have hpos := h.pos share (.head _)
      refine ih h.take (OrderBook.fillMaker_valid hvalid
        (h.offers.stored _ hmem) (h.offers.live _ hmem) ?_ ?_ seqId)
      · rw [UInt64.le_iff_toNat_le, hqty]
        exact h.le share (.head _)
      · rw [Ne, ← UInt64.toNat_inj, hqty, UInt64.toNat_zero]
        omega

theorem OrderBook.Gives.emptied_iff (h : book.Gives shares)
    (hvalid : book.Valid) {price : UInt64} {side : Side} {id : OrderId}
    (hid : id ∈ book.ordersAtPrice price side) :
    emptied shares seqId price side id = true ↔
      ∃ share ∈ shares, share.maker.orderId = id ∧
        share.2 = share.maker.remainingSizeLots.toNat := by
  simp only [emptied, List.any_eq_true, decide_eq_true_eq]
  refine exists_congr fun share => and_congr_right fun hshare => ?_
  rw [h.isClosed_after hvalid hshare]
  constructor
  · rintro ⟨hsame, -, -, hfull⟩
    exact ⟨hsame, hfull⟩
  · rintro ⟨hsame, hfull⟩
    have hmem : share.maker ∈ shares.map Share.maker :=
      List.mem_map_of_mem hshare
    have hstored := h.offers.stored _ hmem
    obtain ⟨order, hget, hside, hprice, -⟩ := hvalid.queued_iff.mp hid
    rw [hsame, hget] at hstored
    cases hstored
    exact ⟨hsame, hside, hprice, hfull⟩

end Gives

theorem takeAll_fills (seqId : Nat) (nowMs : UInt64) (st : MatchState)
    (shares : List Share) :
    (st.takeAll seqId nowMs shares).fills =
      st.fills ++ shares.map (Share.fill st.taker seqId nowMs) := by
  induction shares generalizing st with
  | nil => simp [MatchState.takeAll]
  | cons share shares ih =>
      refine (ih (st.take seqId nowMs share)).trans ?_
      rw [List.map_cons, List.append_cons]
      rfl

/-! ## The result of the call -/

/-- The result of the call, given the greedy allotment along the makers. -/
structure Allots (book : OrderBook) (taker : Order) (seqId : Nat)
    (nowMs : UInt64) (out : Allotment Order) (result : MatchState) :
    Prop where
  fills : result.fills = out.shares.map (Share.fill taker seqId nowMs)
  sizes : result.fills.map (fun fill => fill.sizeLots.toNat) =
    out.shares.map Prod.snd
  takerTerms : result.taker.terms = taker.terms
  takerFilled : result.taker.filledSizeLots.toNat =
    taker.filledSizeLots.toNat +
      (result.fills.map fun fill => fill.sizeLots.toNat).sum
  takerLeft : result.taker.remainingSizeLots.toNat = out.wanted
  takerStatus : result.taker.status =
    if out.wanted = 0 then .filled
    else if out.blocked then .cancelledStp
    else if out.shares = [] then taker.status
    else .partiallyFilled
  makers : ∀ share ∈ out.shares, ∃ maker,
    result.book.get share.1.orderId = some maker ∧
      maker.terms = share.1.terms ∧
      maker.filledSizeLots.toNat = share.1.filledSizeLots.toNat + share.2 ∧
      maker.status =
        if share.2 = share.1.remainingSizeLots.toNat then .filled
        else .partiallyFilled
  others : ∀ id, (∀ share ∈ out.shares, share.1.orderId ≠ id) →
    result.book.get id = book.get id
  queues : ∀ price side, result.book.ordersAtPrice price side =
    (book.ordersAtPrice price side).filter fun id =>
      !out.shares.any fun share =>
        share.1.orderId = id ∧ share.2 = share.1.remainingSizeLots.toNat
  valid : result.book.Valid

/-- Cancelling the taker after a blocked walk changes its status only. -/
structure Deals (seqId : Nat) (out : Allotment Order)
    (dealt result : MatchState) : Prop where
  book : result.book = dealt.book
  fills : result.fills = dealt.fills
  facts : result.taker.facts = dealt.taker.facts
  status : result.taker.status =
    if out.blocked then .cancelledStp else dealt.taker.status

theorem deal_deals (seqId : Nat) (nowMs : UInt64) (st : MatchState)
    (out : Allotment Order) :
    Deals seqId out (st.takeAll seqId nowMs out.shares)
      (st.deal seqId nowMs out) := by
  unfold MatchState.deal
  dsimp only
  by_cases hblocked : out.blocked = true
  · rw [if_pos hblocked]
    exact ⟨rfl, rfl, rfl, by rw [if_pos hblocked]; rfl⟩
  · rw [if_neg hblocked]
    exact ⟨rfl, rfl, rfl, by rw [if_neg hblocked]⟩

section TakerAfter

variable {seqId : Nat} {taker : Order} {out : Allotment Order}
  {st : MatchState} (h : TakerAfter seqId taker out st)
  (hsum : (out.shares.map Prod.snd).sum + out.wanted =
    taker.remainingSizeLots.toNat)

include h hsum

theorem TakerAfter.filled_toNat
    (hle : taker.filledSizeLots ≤ taker.origSizeLots) :
    st.taker.filledSizeLots.toNat =
      taker.filledSizeLots.toNat + (out.shares.map Prod.snd).sum := by
  have hle' := h.ready.filled_le
  have hwanted := h.wanted
  rw [Order.remainingSizeLots_toNat hle'] at hwanted
  rw [Order.remainingSizeLots_toNat hle] at hsum
  have horig := congrArg Order.origSizeLots h.terms
  simp only [Order.terms_origSizeLots] at horig
  rw [horig, UInt64.le_iff_toNat_le] at hle'
  rw [horig] at hwanted
  rw [UInt64.le_iff_toNat_le] at hle
  omega

theorem TakerAfter.status_stopped
    (hwants : taker.filledSizeLots < taker.origSizeLots)
    (hblocked : out.blocked = true → out.wanted ≠ 0) :
    (if out.blocked then .cancelledStp else st.taker.status) =
      if out.wanted = 0 then .filled
      else if out.blocked then .cancelledStp
      else if out.shares = [] then taker.status
      else .partiallyFilled := by
  rw [h.status]
  by_cases hstop : out.blocked = true
  · simp [hstop, hblocked hstop]
  · by_cases hnone : out.shares = []
    · have hleft : out.wanted ≠ 0 := by
        intro hzero
        rw [UInt64.lt_iff_toNat_lt] at hwants
        rw [hnone, hzero, Order.remainingSizeLots_toNat
          (UInt64.le_iff_toNat_le.mpr (Nat.le_of_lt hwants))] at hsum
        simp only [List.map_nil, List.sum_nil] at hsum
        omega
      simp [hstop, hnone, hleft]
    · simp [hstop, hnone]

end TakerAfter

theorem matchOrder_allots {book : OrderBook} {taker : Order}
    (hvalid : book.Valid) (hopen : taker.isClosed = false)
    (hwants : taker.filledSizeLots < taker.origSizeLots) (seqId : Nat)
    (nowMs : UInt64) :
    Allots book taker seqId nowMs (taker.allot (book.crossing taker))
      (matchOrder book taker seqId nowMs) := by
  have hle : taker.filledSizeLots ≤ taker.origSizeLots := by
    rw [UInt64.le_iff_toNat_le]
    rw [UInt64.lt_iff_toNat_lt] at hwants
    omega
  have hready : (MatchState.mk book taker []).Ready := ⟨hle, fun _ => hopen⟩
  rw [matchOrder_eq_deal hvalid hready]
  have hgives := hvalid.gives taker
  have hafter := takeAll_taker seqId nowMs
    ⟨book, taker, []⟩ (book.crossing taker) hready
  have hsum : ((taker.allot (book.crossing taker)).shares.map Prod.snd).sum +
      (taker.allot (book.crossing taker)).wanted =
        taker.remainingSizeLots.toNat :=
    greedy_sum _ _
  have hblocked : (taker.allot (book.crossing taker)).blocked = true →
      (taker.allot (book.crossing taker)).wanted ≠ 0 :=
    greedy_blocked _ _
  have hdeals := deal_deals seqId nowMs ⟨book, taker, []⟩
    (taker.allot (book.crossing taker))
  generalize taker.allot (book.crossing taker) = out at *
  generalize (MatchState.mk book taker []).deal seqId nowMs out = result at *
  have hfills : result.fills =
      out.shares.map (Share.fill taker seqId nowMs) := by
    rw [hdeals.fills, takeAll_fills]
    rfl
  have hsizes : result.fills.map (fun fill => fill.sizeLots.toNat) =
      out.shares.map Prod.snd := by
    rw [hfills, List.map_map]
    exact List.map_congr_left fun share hshare => hgives.qty_toNat hshare
  have hleft : result.taker.remainingSizeLots.toNat = out.wanted := by
    rw [Order.remainingSizeLots_eq_of_facts hdeals.facts]
    exact hafter.wanted
  have hterms : result.taker.terms = taker.terms :=
    (Order.terms_eq_of_facts hdeals.facts).trans hafter.terms
  refine
    { fills := hfills
      sizes := hsizes
      takerTerms := hterms
      takerFilled := ?_
      takerLeft := hleft
      takerStatus := ?_
      makers := ?_
      others := ?_
      queues := ?_
      valid := ?_ }
  · rw [hsizes, Order.filledSizeLots_eq_of_facts hdeals.facts]
    exact hafter.filled_toNat hsum hle
  · rw [hdeals.status]
    exact hafter.status_stopped hsum hwants hblocked
  · intro share hshare
    rw [hdeals.book]
    exact ⟨_, get_takeAll_of_mem hgives.offers hshare,
      hgives.after hvalid hshare⟩
  · intro id hother
    rw [hdeals.book]
    exact get_takeAll_of_not_mem hother
  · intro price side
    rw [hdeals.book, ordersAtPrice_takeAll hgives.offers]
    refine List.filter_congr fun id hid => ?_
    congr 1
    rw [Bool.eq_iff_iff, hgives.emptied_iff hvalid hid]
    simp [Share.maker]
  · rw [hdeals.book]
    exact hgives.takeAll_valid hvalid

theorem matchOrder_allots_bid :
    Allots (OrderBook.new.insert Sample.askOrder) Sample.bidOrder 2 2000
      ⟨[(Sample.askOrder, 4)], 0, false⟩
      (matchOrder (OrderBook.new.insert Sample.askOrder) Sample.bidOrder 2
        2000) := by
  have hvalid : (OrderBook.new.insert Sample.askOrder).Valid := by
    refine OrderBook.insert_valid OrderBook.new_valid rfl ?_ rfl ?_
    · exact ⟨by decide, fun _ => by decide, fun _ => by decide⟩
    · simp [OrderBook.new, OrderBook.get]
  have hout : Sample.bidOrder.allot
      ((OrderBook.new.insert Sample.askOrder).crossing Sample.bidOrder) =
        ⟨[(Sample.askOrder, 4)], 0, false⟩ := by
    decide +kernel
  rw [← hout]
  exact matchOrder_allots hvalid rfl (by decide) 2 2000

end ClobApi
