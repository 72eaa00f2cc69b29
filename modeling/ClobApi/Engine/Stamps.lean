import ClobApi.Engine.BooksPresent

/-!
# Sequence numbers stamped on stored orders

Matching stamps both sides of a fill with the number of the taker's acceptance,
and a trader's cancellation stamps nothing, while the log gives each of these
events a number of its own.  So the stamp of a stored order is the number of the
last event that names it only as long as the order is as it was accepted.
-/

namespace ClobApi

open Foundation

/-- The stamp is the log's, or an older one if the order was changed since. -/
structure Stamp (logged live : Order) : Prop where
  untouched : logged.status = .open →
    live.lastUpdateSequence = logged.lastUpdateSequence
  touched : logged.status ≠ .open →
    live.lastUpdateSequence < logged.lastUpdateSequence

structure Engine.Stamped (e : Engine) : Prop where
  stamp : ∀ {marketId id live logged},
    storedOrder e.books marketId id = some live →
      orderInLog e.log id = some logged → Stamp logged live
  before : ∀ {marketId id live}, storedOrder e.books marketId id = some live →
    live.lastUpdateSequence < e.sequencer.nextSeqId

theorem Engine.new_stamped : Engine.new.Stamped where
  stamp := by simp [storedOrder, Engine.new]
  before := by simp [storedOrder, Engine.new]

theorem Engine.Stamped.touch {e e' : Engine} (h : e.Stamped)
    (touched : OrderId → Prop)
    (hnext : e.sequencer.nextSeqId ≤ e'.sequencer.nextSeqId)
    (hstored : ∀ {marketId id live}, touched id →
      storedOrder e'.books marketId id = some live →
        live.lastUpdateSequence < e.sequencer.nextSeqId)
    (hview : ∀ {id logged}, touched id → orderInLog e'.log id = some logged →
      logged.status ≠ .open ∧
        logged.lastUpdateSequence = e.sequencer.nextSeqId)
    (hsame : ∀ {marketId id}, ¬ touched id →
      storedOrder e'.books marketId id = storedOrder e.books marketId id ∧
        orderInLog e'.log id = orderInLog e.log id) : e'.Stamped where
  stamp := by
    intro marketId id live logged hlive hlogged
    by_cases htouched : touched id
    · obtain ⟨hstatus, hlast⟩ := hview htouched hlogged
      refine ⟨fun hopen => absurd hopen hstatus, fun _ => ?_⟩
      rw [hlast]
      exact hstored htouched hlive
    · obtain ⟨hlive', hlogged'⟩ := @hsame marketId id htouched
      exact h.stamp (hlive' ▸ hlive) (hlogged' ▸ hlogged)
  before := by
    intro marketId id live hlive
    by_cases htouched : touched id
    · exact Nat.lt_of_lt_of_le (hstored htouched hlive) hnext
    · exact Nat.lt_of_lt_of_le (h.before ((hsame htouched).1 ▸ hlive)) hnext

theorem Engine.Stamped.same {e e' : Engine} (h : e.Stamped)
    (hnext : e.sequencer.nextSeqId ≤ e'.sequencer.nextSeqId)
    (hstored : ∀ marketId id,
      storedOrder e'.books marketId id = storedOrder e.books marketId id)
    (hview : ∀ id, orderInLog e'.log id = orderInLog e.log id) : e'.Stamped :=
  h.touch (fun _ => False) hnext nofun nofun
    fun _ => ⟨hstored _ _, hview _⟩

theorem fillOrder_status (seqId : Nat) (qty : UInt64) (order : Order) :
    (Replay.fillOrder seqId qty order).status ≠ .open := by
  unfold Replay.fillOrder
  dsimp only
  split
  · simp
  · simp

theorem cancelOrder_status (seqId : Nat) (reason : CancelReason)
    (order : Order) :
    (Replay.cancelOrder seqId reason order).status ≠ .open := by
  cases reason <;> simp [Replay.cancelOrder, Replay.cancelStatus]

/-! ## Matching -/

/-- The stamps in the middle of matching, the taker's own included. -/
structure Stamping (seqId : Nat) (e : Engine) (st : MatchState) : Prop where
  stamped : e.Stamped
  taker : ∀ {logged}, orderInLog e.log st.taker.orderId = some logged →
    Stamp logged st.taker
  takerBefore : st.taker.lastUpdateSequence < e.sequencer.nextSeqId
  number : seqId < e.sequencer.nextSeqId

section Matching

variable {completed basic : Prop} {e e' : Engine} {st st' : MatchState}
  {seqId : Nat} {nowMs : UInt64} {maker : Order} {wall : Nat → UInt64}

theorem Stamping.fill (h : Stamping seqId e st)
    (hmatching : Matching completed basic e st) (meets : st.Meets maker) :
    Stamping seqId (e.fillOnce wall st maker seqId nowMs)
      (st.fillAgainst maker seqId nowMs) := by
  have hview := hmatching.view_fillOnce meets wall seqId nowMs
  have htouched : ∀ {id logged},
      id = st.taker.orderId ∨ id = maker.orderId →
        orderInLog (e.fillOnce wall st maker seqId nowMs).log id = some logged →
          logged.status ≠ .open ∧
            logged.lastUpdateSequence = e.sequencer.nextSeqId := by
    intro id logged hid hlogged
    rw [hview, if_pos hid] at hlogged
    obtain ⟨old, -, rfl⟩ := Option.map_eq_some_iff.mp hlogged
    exact ⟨fillOrder_status _ _ _, rfl⟩
  have hstored : ∀ marketId id,
      storedOrder (e.fillOnce wall st maker seqId nowMs).books marketId id =
        if marketId = st.taker.marketId.value ∧ id = maker.orderId then
          some (applyFillTo maker (st.fillQty maker) seqId)
        else storedOrder e.books marketId id := by
    refine storedOrder_put hmatching.book fun id => ?_
    have hget := (hmatching.valid.get_maker meets).1
    refine (OrderBook.get_settle _ _ _ _).trans ?_
    split
    · next hid => rw [hid, hget, Option.map_some]
    · rfl
  refine ⟨h.stamped.touch (fun id => id = st.taker.orderId ∨
    id = maker.orderId) (Nat.le_succ _) ?_ htouched ?_, fun hlogged => ?_,
    Nat.lt_succ_of_lt h.number, Nat.lt_succ_of_lt h.number⟩
  · intro marketId id live _ hlive
    rw [hstored] at hlive
    split at hlive
    · cases hlive
      exact h.number
    · exact h.stamped.before hlive
  · intro marketId id hid
    rw [not_or] at hid
    refine ⟨?_, ?_⟩
    · rw [hstored, if_neg fun hboth => hid.2 hboth.2]
    · rw [hview, if_neg fun hor => hor.elim hid.1 hid.2]
  · obtain ⟨hstatus, hlast⟩ := htouched (.inl rfl) hlogged
    exact ⟨fun hopen => absurd hopen hstatus, fun _ => hlast ▸ h.number⟩

theorem Stamping.run (hrun : FillRun seqId nowMs st st')
    (hmatching : Matching completed basic
      (e.midway wall st.taker.marketId.value st) st)
    (h : Stamping seqId (e.midway wall st.taker.marketId.value st) st) :
    Stamping seqId (e.midway wall st.taker.marketId.value st') st' := by
  induction hrun with
  | refl => exact h
  | @tail mid last hmid hstep ih =>
      have hmarket : mid.taker.marketId = st.taker.marketId := by
        simpa using congrArg Order.marketId (FillRun.taker_terms hmid)
      have hmid' := hmatching.run hmid
      cases hstep with
      | fill meets trader =>
          rw [← hmarket] at ih hmid' ⊢
          rw [midway_fillAgainst]
          exact ih.fill hmid' meets

theorem Stamping.residual (h : Stamping seqId e st)
    (hmatching : Matching completed basic e st)
    (hresidual : e.insertResidual st.taker = some e') : e'.Stamped := by
  unfold Engine.insertResidual at hresidual
  split at hresidual
  · rw [hmatching.book, Option.map_some, Option.some.injEq] at hresidual
    subst hresidual
    have hstored : ∀ marketId id, storedOrder
        (e.books.insert st.taker.marketId.value (st.book.insert st.taker))
          marketId id =
        if marketId = st.taker.marketId.value ∧ id = st.taker.orderId then
          some st.taker
        else storedOrder e.books marketId id :=
      storedOrder_put hmatching.book (OrderBook.get_insert st.book st.taker)
    refine ⟨fun {marketId id live logged} hlive hlogged => ?_,
      fun {marketId id live} hlive => ?_⟩
    · rw [hstored] at hlive
      split at hlive
      · next hkey =>
          cases hlive
          rw [hkey.2] at hlogged
          exact h.taker hlogged
      · exact h.stamped.stamp hlive hlogged
    · rw [hstored] at hlive
      split at hlive
      · cases hlive
        exact h.takerBefore
      · exact h.stamped.before hlive
  · cases hresidual
    exact h.stamped

theorem Stamping.finish (h : Stamping seqId e st)
    (hmatching : Matching completed basic e st)
    (hend : MatchEnd seqId st st')
    (hresidual : (e.sequenceStpCancel wall st'.taker).insertResidual st'.taker =
      some e') : e'.Stamped := by
  have hsame : e.sequenceStpCancel wall st.taker = e :=
    if_neg hmatching.valid.uncancelled
  cases hend with
  | filled full =>
      rw [hsame] at hresidual
      exact h.residual hmatching hresidual
  | exhausted none =>
      rw [hsame] at hresidual
      exact h.residual hmatching hresidual
  | selfTrade meets trader =>
      have happends := stpCancel_appends wall e
        (cancelTaker st.taker seqId) rfl
      have hbooks := (stpCancel_tables wall e
        (cancelTaker st.taker seqId)).2
      rw [insertResidual_closed _ (.inl rfl), Option.some.injEq] at hresidual
      subst hresidual
      refine h.stamped.touch (fun id => id = st.taker.orderId) ?_ ?_ ?_ ?_
      · rw [happends.next]
        exact Nat.le_succ _
      · rintro marketId id live rfl hlive
        rw [hbooks, hmatching.pending.unstored] at hlive
        cases hlive
      · rintro id logged rfl hlogged
        rw [happends.log, orderInLog_append, viewStep_cancel] at hlogged
        rw [if_pos (by rfl)] at hlogged
        obtain ⟨old, -, rfl⟩ := Option.map_eq_some_iff.mp hlogged
        exact ⟨cancelOrder_status _ _ _, rfl⟩
      · intro marketId id hid
        refine ⟨by rw [hbooks], ?_⟩
        rw [happends.log, orderInLog_append, viewStep_cancel]
        exact if_neg hid

end Matching

/-! ## Every operation -/

section Operations

variable {e : Engine} {crypto : Crypto} {signed : SignedOrder} {env : CallEnv}

theorem afterAccept_stamped (h : e.Stamped)
    (hpending : PendingOrder (e.afterAccept crypto signed env)
      (Engine.buildOrder crypto signed env e.sequencer.peekNextSeqId))
    (hsubmits : Engine.Submits crypto e signed env) :
    (e.afterAccept crypto signed env).Stamped := by
  have hview : ∀ {id}, id ≠ env.newOrderId →
      orderInLog (e.afterAccept crypto signed env).log id =
        orderInLog e.log id := by
    intro id hid
    rw [(afterAccept_appends hsubmits).log, orderInLog_append]
    exact if_neg hid
  have hne : ∀ {marketId id live},
      storedOrder e.books marketId id = some live → id ≠ env.newOrderId := by
    rintro marketId id live hlive rfl
    exact absurd ((hpending.unstored marketId).symm.trans hlive) (by simp)
  refine ⟨fun {marketId id live logged} hlive hlogged => ?_,
    fun {marketId id live} hlive => ?_⟩
  · rw [hview (hne hlive)] at hlogged
    exact h.stamp hlive hlogged
  · exact Nat.lt_succ_of_lt (h.before hlive)

theorem processOrder_stamped {completed basic : Prop} (h : e.Stamped)
    (hinv : e.Inv completed basic noOrder)
    (hfresh : e.Admits (.processOrder signed env)) :
    (e.processOrder crypto signed env).1.Stamped := by
  obtain ⟨outcome, hsame, -, -⟩ | ⟨hsubmits, hexecute⟩ :=
    Engine.processOrder_cases crypto e signed env
  · rw [hsame]
    exact h
  have hpending := (afterAccept_inv hinv hsubmits hfresh).2
  have hstamped := afterAccept_stamped h hpending hsubmits
  cases hbook : e.books.get? signed.marketId.value with
  | none =>
      rw [hsubmits.panics hbook]
      exact hstamped
  | some book =>
      have hstart := matching_start hinv hsubmits hfresh hbook
      obtain ⟨st, hrun, hend⟩ :=
        matchOrder_run hstart.valid e.sequencer.peekNextSeqId env.nowMs
      obtain ⟨e', hresidual, -⟩ := (hstart.run hrun).finish hend env.wall
      have hbooks : ∀ marketId id, storedOrder
          (e.books.insert signed.marketId.value book) marketId id =
            storedOrder e.books marketId id := by
        intro marketId id
        refine storedOrder_congr (fun other => ?_) marketId id
        rw [HashMap.get?_insert]
        split
        · next hm => rw [hm, hbook]
        · rfl
      have hstamping : Stamping e.sequencer.peekNextSeqId
          ((e.afterAccept crypto signed env).midway env.wall
            signed.marketId.value
            ⟨book, Engine.buildOrder crypto signed env
              e.sequencer.peekNextSeqId, []⟩)
          ⟨book, Engine.buildOrder crypto signed env e.sequencer.peekNextSeqId,
            []⟩ := by
        refine ⟨hstamped.same (Nat.le_refl _) hbooks fun _ => rfl,
          fun {logged} hlogged => ?_, Nat.lt_succ_self _, Nat.lt_succ_self _⟩
        have hnew : orderInLog (e.afterAccept crypto signed env).log
            env.newOrderId =
          some (Engine.buildOrder crypto signed env
            e.sequencer.peekNextSeqId) := by
          rw [(afterAccept_appends hsubmits).log, orderInLog_append]
          exact if_pos rfl
        obtain rfl := Option.some.inj (hlogged.symm.trans hnew)
        exact ⟨fun _ => rfl, fun hstatus => absurd rfl hstatus⟩
      have hfinish := (hstamping.run hrun hstart).finish (hstart.run hrun) hend
        hresidual
      obtain ⟨hsameBook, hsameFills, -⟩ := hend.same
      rw [← midway_congr hsameBook hsameFills] at hresidual
      rw [hexecute, executeOrder_eq hbook rfl hresidual]
      exact hfinish

theorem processCancel_stamped (h : e.Stamped) (orderId : OrderId)
    (traderId : String) (wall : Nat → UInt64) :
    (e.processCancel orderId traderId wall).1.Stamped := by
  obtain ⟨hsame, -⟩ | ⟨marketId, book, order, hcancels⟩ :=
    Engine.processCancel_cases e orderId traderId wall
  · rw [hsame]
    exact h
  rw [hcancels.processCancel_eq, Engine.afterCancel,
    OrderBook.cancel_eq_settle hcancels.stored hcancels.active]
  have hstored : ∀ marketId' id, storedOrder (e.books.insert marketId
      (book.settle orderId fun order => { order with status := .cancelled }))
        marketId' id =
      if marketId' = marketId ∧ id = orderId then
        some { order with status := .cancelled }
      else storedOrder e.books marketId' id := by
    refine storedOrder_put hcancels.listed fun id => ?_
    rw [OrderBook.get_settle]
    split
    · next hid => rw [hid, hcancels.stored, Option.map_some]
    · rfl
  have hview : ∀ id, orderInLog (e.appendEvent wall
      (.orderCancelled orderId order.orderHash .traderRequest)).log id =
        if id = orderId then (orderInLog e.log id).map
          (Replay.cancelOrder e.sequencer.nextSeqId .traderRequest)
        else orderInLog e.log id :=
    fun id => orderInLog_append e.log _ id
  refine h.touch (fun id => id = orderId) (Nat.le_succ _) ?_ ?_ ?_
  · rintro marketId' id live rfl hlive
    rw [hstored] at hlive
    split at hlive
    · have hbefore := h.before
        (storedOrder_eq_some.mpr ⟨book, hcancels.listed, hcancels.stored⟩)
      cases hlive
      exact hbefore
    · exact h.before hlive
  · rintro id logged rfl hlogged
    have hlogged' := (hview id).symm.trans hlogged
    rw [if_pos rfl] at hlogged'
    obtain ⟨old, -, rfl⟩ := Option.map_eq_some_iff.mp hlogged'
    exact ⟨cancelOrder_status _ _ _, rfl⟩
  · intro marketId' id hid
    refine ⟨(hstored marketId' id).trans (if_neg fun hboth => hid hboth.2),
      (hview id).trans (if_neg hid)⟩

theorem addMarket_stamped (h : e.Stamped) (config : MarketConfig) :
    (e.addMarket config).Stamped := by
  exact h.same (Nat.le_refl _)
    (fun marketId => storedOrder_of_bookAt (bookAt_addMarket e config marketId))
    fun _ => rfl

theorem switchMarket_stamped (h : e.Stamped) {marketId : String}
    {source target : MarketStatus} {event : Event} {wall : Nat → UInt64}
    (hneutral : ∀ id order seqId timestampMs,
      viewStep id order ⟨seqId, timestampMs, event⟩ = order) :
    (e.switchMarket marketId source target event wall).1.Stamped := by
  obtain ⟨error, hrefused⟩ | ⟨market, hfind, htarget, hsource⟩ :=
    Engine.switchMarket_cases e marketId source target event wall
  · rw [hrefused]
    exact h
  rw [Engine.switchMarket_eq hfind htarget hsource]
  exact (addMarket_stamped h { market with status := target }).same
    (Nat.le_succ _) (fun _ _ => rfl) fun id =>
      (orderInLog_append _ _ id).trans (hneutral id _ _ _)

end Operations

theorem BasicStep.run_stamped {crypto : Crypto} {ops : List Op} {e : Engine}
    (h : Run (BasicStep crypto) .new ops e) : e.Stamped := by
  induction h with
  | start => exact Engine.new_stamped
  | @next _ e op _ hrun hstep ih =>
      obtain ⟨⟨hadmits, rfl⟩, hbasic⟩ := hstep
      cases op with
      | addMarket config => exact addMarket_stamped ih config
      | processOrder signed env =>
          exact processOrder_stamped ih (BasicStep.run_inv hrun).1 hadmits
      | processCancel orderId traderId wall =>
          exact processCancel_stamped ih orderId traderId wall
      | pauseMarket marketId triggeredBy wall =>
          exact switchMarket_stamped ih fun _ _ _ _ => rfl
      | resumeMarket marketId triggeredBy wall =>
          exact switchMarket_stamped ih fun _ _ _ _ => rfl
      | cancelAllOrders => cases hbasic
      | restoreFromEvents => cases hbasic

end ClobApi
