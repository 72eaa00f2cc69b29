import ClobApi.Engine.Ranking
import ClobApi.Engine.Writes

/-!
# Orders and events without their times

Matching reads the prices, the remaining sizes and the traders of a queue, in
its order.  It never looks at a clock, so what it writes is determined up to the
times that it stamps.
-/

namespace ClobApi

open Foundation

def Order.timeless (order : Order) : Order := { order with acceptedAtMs := 0 }

def Fill.timeless (fill : Fill) : Fill := { fill with executedAtMs := 0 }

def Event.timeless : Event → Event
  | .orderAccepted order => .orderAccepted order.timeless
  | .fill trade => .fill trade.timeless
  | event => event

def SequencedEvent.timeless (se : SequencedEvent) : SequencedEvent :=
  ⟨se.seqId, 0, se.event.timeless⟩

def timelessLog (log : List SequencedEvent) : List SequencedEvent :=
  log.map SequencedEvent.timeless

def Order.gist (order : Order) : Order := order.core.timeless

theorem eq_of_view {α : Type} (view : Order → Order) (f : Order → α)
    (hf : ∀ order, f (view order) = f order) {order order' : Order}
    (h : view order = view order') : f order = f order' := by
  rw [← hf, h, hf]

/-! ## Views of a log -/

section Views

variable (log log' : List SequencedEvent) (wall : Nat → UInt64)

theorem timelessLog_append :
    timelessLog (log ++ log') = timelessLog log ++ timelessLog log' :=
  List.map_append

theorem length_timelessLog : (timelessLog log).length = log.length :=
  List.length_map _

theorem timelessLog_numbered (seqId : Nat) (events : List Event) :
    timelessLog (numbered wall seqId events) =
      numbered (fun _ => 0) seqId (events.map Event.timeless) := by
  induction events generalizing seqId with
  | nil => rfl
  | cons event events ih => exact congrArg _ (ih (seqId + 1))

theorem accepted_timelessLog :
    accepted (timelessLog log) = (accepted log).map Order.timeless := by
  unfold accepted timelessLog
  rw [List.filterMap_map, List.map_filterMap]
  congr 1
  funext se
  cases hevent : se.event <;>
    simp [SequencedEvent.timeless, Event.timeless, Event.accepts, hevent]

theorem map_timeless_comm {f : Order → Order}
    (hf : ∀ order, (f order).timeless = f order.timeless)
    (order : Option Order) :
    (order.map Order.timeless).map f = (order.map f).map Order.timeless := by
  cases order with
  | none => rfl
  | some order => exact congrArg some (hf order).symm

theorem viewStep_timeless (id : OrderId) (order : Option Order)
    (se : SequencedEvent) :
    viewStep id (order.map Order.timeless) se.timeless =
      (viewStep id order se).map Order.timeless := by
  have hfill : ∀ (qty : UInt64) (order : Option Order),
      (order.map Order.timeless).map (Replay.fillOrder se.seqId qty) =
        (order.map (Replay.fillOrder se.seqId qty)).map Order.timeless :=
    fun _ => map_timeless_comm fun _ => rfl
  have hcancel : ∀ reason (order : Option Order),
      (order.map Order.timeless).map (Replay.cancelOrder se.seqId reason) =
        (order.map (Replay.cancelOrder se.seqId reason)).map Order.timeless :=
    fun _ => map_timeless_comm fun _ => rfl
  have hite : ∀ (p : Prop) [Decidable p] (a b : Option Order),
      (if p then a else b).map Order.timeless =
        if p then a.map Order.timeless else b.map Order.timeless :=
    fun p _ a b => apply_ite _ p a b
  unfold viewStep
  rw [SequencedEvent.timeless]
  cases se.event with
  | orderAccepted new =>
      simp only [hite]
      rfl
  | fill trade =>
      simp only [hite, ← hfill]
      rfl
  | orderCancelled cancelled orderHash reason =>
      simp only [hite, ← hcancel]
      rfl
  | _ => rfl

theorem orderInLog_timelessLog (id : OrderId) :
    orderInLog (timelessLog log) id =
      (orderInLog log id).map Order.timeless := by
  induction log using List.reverseRecOn with
  | nil => rfl
  | append_singleton log se ih =>
      rw [timelessLog_append, orderInLog_append, ← viewStep_timeless, ← ih]
      exact orderInLog_append _ _ _

end Views

/-! ## Matching -/

section Matching

variable {book book' : OrderBook} {taker taker' : Order}
  {st st' : MatchState} {seqId : Nat} {nowMs nowMs' : UInt64}

theorem map_gist_allot (taker : Order) (makers : List Order) :
    (taker.allot makers).map Order.gist =
      taker.timeless.allot (makers.map Order.gist) :=
  (@greedy_map Order (fun maker => maker.remainingSizeLots.toNat)
    (fun maker => maker.traderId == taker.traderId) Order Order.gist makers
    taker.remainingSizeLots.toNat).symm

/-- States of matching that differ in the book and in times. -/
structure MatchState.Alike (st st' : MatchState) : Prop where
  taker : st.taker.timeless = st'.taker.timeless
  fills : st.fills.map Fill.timeless = st'.fills.map Fill.timeless

theorem MatchState.Alike.events (h : st.Alike st') :
    st.events.map Event.timeless = st'.events.map Event.timeless := by
  have hfills : ∀ fills : List Fill, (fills.map Event.fill).map Event.timeless =
      (fills.map Fill.timeless).map Event.fill := by
    intro fills
    rw [List.map_map, List.map_map]
    rfl
  have hstatus : st.taker.status = st'.taker.status :=
    eq_of_view Order.timeless Order.status (fun _ => rfl) h.taker
  have hid : st.taker.orderId = st'.taker.orderId :=
    eq_of_view Order.timeless Order.orderId (fun _ => rfl) h.taker
  have hhash : st.taker.orderHash = st'.taker.orderHash :=
    eq_of_view Order.timeless Order.orderHash (fun _ => rfl) h.taker
  unfold MatchState.events
  rw [List.map_append, List.map_append, hfills, hfills, h.fills, hstatus, hid,
    hhash]

theorem MatchState.Alike.take (h : st.Alike st') {share share' : Share}
    (hmaker : share.maker.gist = share'.maker.gist)
    (hqty : share.2 = share'.2) :
    (st.take seqId nowMs share).Alike (st'.take seqId nowMs' share') where
  taker := by
    change applyFillTo st.taker.timeless share.qty seqId =
      applyFillTo st'.taker.timeless share'.qty seqId
    rw [h.taker, Share.qty, Share.qty, hqty]
  fills := by
    have hfill : (share.fill st.taker seqId nowMs).timeless =
        (share'.fill st'.taker seqId nowMs').timeless := by
      change makeFill st.taker.timeless share.maker.gist
        share.maker.gist.priceTicks share.qty seqId 0 =
          makeFill st'.taker.timeless share'.maker.gist
            share'.maker.gist.priceTicks share'.qty seqId 0
      rw [h.taker, hmaker, Share.qty, Share.qty, hqty]
    simp only [MatchState.take, List.map_append, List.map_singleton, h.fills,
      hfill]

theorem MatchState.Alike.takeAll (h : st.Alike st')
    {shares shares' : List Share}
    (hshares : shares.map (fun share => (share.1.gist, share.2)) =
      shares'.map fun share => (share.1.gist, share.2)) :
    (st.takeAll seqId nowMs shares).Alike
      (st'.takeAll seqId nowMs' shares') := by
  induction shares generalizing st st' shares' with
  | nil =>
      obtain rfl := List.map_eq_nil_iff.mp hshares.symm
      exact h
  | cons share shares ih =>
      cases shares' with
      | nil => cases hshares
      | cons share' shares' =>
          obtain ⟨hfirst, hrest⟩ := List.cons.inj hshares
          obtain ⟨hmaker, hqty⟩ := Prod.mk.inj hfirst
          exact ih (h.take hmaker hqty) hrest

theorem MatchState.Alike.deal (h : st.Alike st') {out out' : Allotment Order}
    (hout : out.map Order.gist = out'.map Order.gist) :
    (st.deal seqId nowMs out).Alike (st'.deal seqId nowMs' out') := by
  obtain ⟨hshares, -, hblocked⟩ := Allotment.mk.inj hout
  have hall : (st.takeAll seqId nowMs out.shares).Alike
      (st'.takeAll seqId nowMs' out'.shares) := h.takeAll hshares
  unfold MatchState.deal
  dsimp only
  rw [hblocked]
  split
  · refine ⟨?_, hall.fills⟩
    change cancelTaker (st.takeAll seqId nowMs out.shares).taker.timeless
        seqId =
      cancelTaker (st'.takeAll seqId nowMs' out'.shares).taker.timeless seqId
    rw [hall.taker]
  · exact hall

theorem OrderBook.Valid.matchOrder_alike (hvalid : book.Valid)
    (hvalid' : book'.Valid) (htaker : taker.timeless = taker'.timeless)
    (hready : (MatchState.mk book taker []).Ready)
    (hready' : (MatchState.mk book' taker' []).Ready)
    (hqueue : (book.ranking taker.side.opposite).map Order.gist =
      (book'.ranking taker.side.opposite).map Order.gist) :
    (matchOrder book taker seqId nowMs).Alike
      (matchOrder book' taker' seqId nowMs') := by
  have hside : taker'.side = taker.side :=
    eq_of_view Order.timeless Order.side (fun _ => rfl) htaker.symm
  have hcrosses : taker'.Crosses = taker.Crosses :=
    eq_of_view Order.timeless Order.Crosses (fun _ => rfl) htaker.symm
  have hcrossing : (book.crossing taker).map Order.gist =
      (book'.crossing taker').map Order.gist := by
    rw [hvalid.crossing_eq_takeWhile, hvalid'.crossing_eq_takeWhile, hside]
    have hprices := congrArg (List.takeWhile fun maker : Order =>
      taker.Crosses maker.priceTicks) hqueue
    rw [List.takeWhile_map, List.takeWhile_map] at hprices
    simp only [hcrosses]
    exact hprices
  rw [matchOrder_eq_deal hvalid hready, matchOrder_eq_deal hvalid' hready']
  have hstart : (MatchState.mk book taker []).Alike ⟨book', taker', []⟩ :=
    ⟨htaker, rfl⟩
  refine hstart.deal ?_
  rw [map_gist_allot, map_gist_allot, hcrossing, htaker]

end Matching

end ClobApi
