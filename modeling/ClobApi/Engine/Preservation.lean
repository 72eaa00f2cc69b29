import ClobApi.Engine.Invariant

/-!
# Every operation keeps the invariant

One section for each operation, and at the end the invariant of every run.
-/

namespace ClobApi

open Foundation

/-! ## The end of a submission -/

section Finish

variable {completed basic : Prop} {e : Engine} {st st' : MatchState}
  {seqId : Nat}

theorem Engine.Inv.done {id : OrderId}
    (h : e.Inv completed basic (fun id' => id' = id))
    (hclosed : ∀ logged, orderInLog e.log id = some logged →
      logged.isClosed = true) :
    e.Inv completed basic noOrder :=
  { h with
    sync := { h.sync with
      covered := by
        intro hcompleted id' logged hview hopen _
        refine h.sync.covered hcompleted hview hopen ?_
        rintro rfl
        simp [hclosed logged hview] at hopen } }

theorem Engine.Inv.forget {pending : OrderId → Prop}
    (h : e.Inv completed basic pending) (hpanic : ¬ completed) :
    e.Inv completed basic noOrder :=
  { h with
    sync := { h.sync with
      covered := fun hcompleted => absurd hcompleted hpanic } }

theorem stpCancel_appends (wall : Nat → UInt64) (e : Engine) (order : Order)
    (hstatus : order.status = .cancelledStp) :
    Appends e (e.sequenceStpCancel wall order)
      (.orderCancelled order.orderId order.orderHash .selfTradePrevention)
      (wall e.sequencer.nextSeqId) := by
  rw [Engine.sequenceStpCancel, if_pos hstatus]
  exact ⟨rfl, rfl, fun _ h => h.cancelOrder _, rfl⟩

theorem Matching.selfTrade {maker : Order} (h : Matching completed basic e st)
    (meets : st.Meets maker) (wall : Nat → UInt64) :
    (e.sequenceStpCancel wall (cancelTaker st.taker seqId)).Inv completed basic
      noOrder := by
  obtain ⟨logged, hlogged, hcore⟩ := h.pending.logged
  have happends := stpCancel_appends wall e (cancelTaker st.taker seqId) rfl
  have hbooks : (e.sequenceStpCancel wall (cancelTaker st.taker seqId)).books =
      e.books := by
    simp [Engine.sequenceStpCancel, cancelTaker, Engine.appendEvent]
  have hopen : logged.isClosed = false := by
    rw [Order.isClosed_eq_of_core hcore]
    by_contra hclosed
    exact meets.active (h.valid.closed (by simpa using hclosed))
  have hhash : logged.orderHash = st.taker.orderHash := by
    simpa using congrArg Order.orderHash (Order.terms_eq_of_core hcore)
  have hlegal : LegalEvent basic e.log
      (.orderCancelled st.taker.orderId st.taker.orderHash
        .selfTradePrevention) :=
    hhash ▸ .orderCancelled hlogged fun _ => hopen
  have hsync : BooksSync completed basic noOrder _ e.books :=
    h.inv.sync.updateView st.taker.orderId
      (Replay.cancelOrder e.sequencer.nextSeqId .selfTradePrevention)
      (fun id' hne hp => absurd hp hne)
      (fun marketId live hstored =>
        absurd ((h.pending.unstored marketId).symm.trans hstored) nofun)
      (fun _ _ => .inl rfl)
  refine ⟨h.inv.toLogInv.append hlegal happends, ?_⟩
  rw [hbooks]
  refine hsync.congr_view fun id => ?_
  rw [happends.log, orderInLog_append, viewStep_cancel]
  rfl

theorem insertResidual_closed (e : Engine) {order : Order}
    (h : order.isClosed = true ∨ order.remainingSizeLots = 0) :
    e.insertResidual order = some e := by
  unfold Engine.insertResidual
  rcases h with h | h <;> simp [h]

theorem Matching.residual (h : Matching completed basic e st)
    (hopen : st.taker.isClosed = false)
    (hnocross : ∀ maker, st.book.Resting st.taker.side.opposite maker →
      ¬ st.taker.Crosses maker.priceTicks) :
    ∃ e', e.insertResidual st.taker = some e' ∧
      e'.Inv completed basic noOrder := by
  have hremaining : st.taker.remainingSizeLots > 0 :=
    UInt64.pos_iff_ne_zero.mpr (h.valid.taker.remaining_ne_zero hopen)
  obtain ⟨logged, hlogged, hcore⟩ := h.pending.logged
  refine ⟨
    { e with books :=
        e.books.insert st.taker.marketId.value (st.book.insert st.taker) }, ?_,
    { h.inv with sync :=
        h.inv.sync.insertResidual h.book hlogged hcore ?_ fun _ => hnocross }⟩
  · simp [Engine.insertResidual, hopen, hremaining, h.book]
  · have hunstored := h.pending.unstored st.taker.marketId.value
    refine OrderBook.insert_valid h.valid.book hopen h.valid.taker ?_
      fun id live hget => ?_
    · simpa [storedOrder, h.book] using hunstored
    · have hstored := storedOrder_eq_some.mpr ⟨_, h.book, hget⟩
      obtain ⟨older, holder, hmatches⟩ := h.inv.sync.stored hstored
      have hcreated : older.createdSequence = live.createdSequence := by
        simpa using congrArg Order.createdSequence
          (Order.terms_eq_of_facts hmatches.facts)
      rw [← hcreated]
      refine h.pending.last holder ?_
      rintro rfl
      rw [hunstored] at hstored
      cases hstored

theorem Matching.finish (h : Matching completed basic e st)
    (hend : MatchEnd seqId st st') (wall : Nat → UInt64) :
    ∃ e', (e.sequenceStpCancel wall st'.taker).insertResidual st'.taker =
      some e' ∧ e'.Inv completed basic noOrder := by
  have hsame : e.sequenceStpCancel wall st.taker = e :=
    if_neg h.valid.uncancelled
  have hfull : st.taker.isClosed = true → e.Inv completed basic noOrder := by
    intro hclosed
    refine h.inv.done fun logged hlogged => ?_
    obtain ⟨logged', hlogged', hcore⟩ := h.pending.logged
    obtain rfl := Option.some.inj (hlogged.symm.trans hlogged')
    rw [Order.isClosed_eq_of_core hcore, hclosed]
  cases hend with
  | filled full =>
      have hclosed : st.taker.isClosed = true := by
        by_contra hopen
        exact h.valid.taker.remaining_ne_zero (by simpa using hopen) full
      exact ⟨e, by rw [hsame]; exact insertResidual_closed e (.inl hclosed),
        hfull hclosed⟩
  | exhausted none =>
      rw [hsame]
      cases hclosed : st.taker.isClosed with
      | true => exact ⟨e, insertResidual_closed e (.inl hclosed), hfull hclosed⟩
      | false => exact h.residual hclosed none
  | selfTrade meets trader =>
      exact ⟨_, insertResidual_closed _ (.inl rfl), h.selfTrade meets wall⟩

end Finish

/-! ## Submissions -/

section Submit

variable {completed basic : Prop} {e : Engine} {crypto : Crypto}
  {signed : SignedOrder} {env : CallEnv}

theorem buildOrder_consistent (hsubmits : Engine.Submits crypto e signed env)
    (seqId : Nat) : (Engine.buildOrder crypto signed env seqId).Consistent := by
  refine ⟨UInt64.zero_le, fun _ => ?_, fun _ => by simp [Engine.buildOrder]⟩
  exact UInt64.pos_iff_ne_zero.mpr (Engine.checkIntake_ok hsubmits.intake).1

theorem matching_start (h : e.Inv completed basic noOrder)
    (hsubmits : Engine.Submits crypto e signed env)
    (hfresh : e.Admits (.processOrder signed env)) {book : OrderBook}
    (hbook : e.books.get? signed.marketId.value = some book) :
    Matching completed basic
      ((e.afterAccept crypto signed env).midway env.wall signed.marketId.value
        ⟨book, Engine.buildOrder crypto signed env e.sequencer.peekNextSeqId,
          []⟩)
      ⟨book, Engine.buildOrder crypto signed env e.sequencer.peekNextSeqId,
        []⟩ := by
  obtain ⟨hinv, hpending⟩ := afterAccept_inv h hsubmits hfresh
  have hbooks : ∀ marketId,
      (e.books.insert signed.marketId.value book).get? marketId =
        e.books.get? marketId := by
    intro marketId
    rw [HashMap.get?_insert]
    split
    · next hm => rw [hm, hbook]
    · rfl
  refine ⟨{ hinv with sync := hinv.sync.congr_books hbooks },
    ⟨hpending.logged, ?_, hpending.last⟩, HashMap.get?_insert_self _ _ _,
    ⟨h.sync.valid hbook, buildOrder_consistent hsubmits _,
      by simp [Engine.buildOrder, Order.isClosed, OrderStatus.isClosed],
      by simp [Engine.buildOrder]⟩⟩
  intro marketId
  change storedOrder (e.books.insert signed.marketId.value book)
    marketId _ = none
  rw [storedOrder_congr hbooks]
  exact hpending.unstored marketId

theorem executeOrder_inv (h : e.Inv completed basic noOrder)
    (hsubmits : Engine.Submits crypto e signed env)
    (hfresh : e.Admits (.processOrder signed env)) :
    (e.books.get? signed.marketId.value = none ∧
      (e.afterAccept crypto signed env).executeOrder
        (Engine.buildOrder crypto signed env e.sequencer.peekNextSeqId) env =
          (e.afterAccept crypto signed env, .panic)) ∨
    ∃ e' result, (e.afterAccept crypto signed env).executeOrder
        (Engine.buildOrder crypto signed env e.sequencer.peekNextSeqId) env =
          (e', .ok result) ∧ e'.Inv completed basic noOrder := by
  have hbooks : (e.afterAccept crypto signed env).books = e.books := rfl
  cases hbook : e.books.get? signed.marketId.value with
  | none =>
      left
      refine ⟨rfl, ?_⟩
      unfold Engine.executeOrder
      simp only [Engine.buildOrder, hbooks, hbook]
  | some book =>
      right
      have hstart := matching_start h hsubmits hfresh hbook
      obtain ⟨st, hrun, hend⟩ :=
        matchOrder_run hstart.valid e.sequencer.peekNextSeqId env.nowMs
      obtain ⟨e', hresidual, hinv⟩ := (hstart.run hrun).finish hend env.wall
      obtain ⟨hsameBook, hsameFills, -⟩ := hend.same
      rw [← midway_congr hsameBook hsameFills] at hresidual
      exact ⟨e', _, executeOrder_eq hbook rfl hresidual, hinv⟩

theorem processOrder_inv (h : e.Inv completed basic noOrder)
    (hfresh : e.Admits (.processOrder signed env))
    (hcompleted : completed → (e.processOrder crypto signed env).2 ≠ .panic) :
    (e.processOrder crypto signed env).1.Inv completed basic noOrder := by
  obtain ⟨outcome, hsame, -, -⟩ | ⟨hsubmits, hexecute⟩ :=
    Engine.processOrder_cases crypto e signed env
  · rw [hsame]
    exact h
  · rw [hexecute] at hcompleted ⊢
    obtain ⟨-, hpanic⟩ | ⟨e', result, hdone, hinv⟩ :=
      executeOrder_inv h hsubmits hfresh
    · rw [hpanic] at hcompleted ⊢
      exact (afterAccept_inv h hsubmits hfresh).1.forget fun hc =>
        hcompleted hc rfl
    · rw [hdone]
      exact hinv

end Submit

/-! ## Cancellations -/

section Cancel

variable {completed basic : Prop} {e : Engine}

theorem processCancel_inv (h : e.Inv completed basic noOrder)
    (orderId : OrderId) (traderId : String) (wall : Nat → UInt64) :
    (e.processCancel orderId traderId wall).1.Inv completed basic noOrder := by
  obtain ⟨hsame, -⟩ | ⟨marketId, book, order, hcancels⟩ :=
    Engine.processCancel_cases e orderId traderId wall
  · rw [hsame]
    exact h
  rw [hcancels.processCancel_eq, Engine.afterCancel,
    OrderBook.cancel_eq_settle hcancels.stored hcancels.active]
  obtain ⟨-, hbook, hget, -, hopen⟩ := hcancels
  obtain ⟨logged, hlogged, hmatches⟩ :=
    h.sync.stored (storedOrder_eq_some.mpr ⟨_, hbook, hget⟩)
  have hhash : logged.orderHash = order.orderHash := by
    simpa using congrArg Order.orderHash
      (Order.terms_eq_of_facts hmatches.facts)
  have hlegal : LegalEvent basic e.log
      (.orderCancelled orderId order.orderHash .traderRequest) :=
    hhash ▸ .orderCancelled hlogged fun hbasic => by
      rw [Order.isClosed_eq_of_core (hmatches.core hbasic), hopen]
  have hvalid : (book.settle orderId fun order =>
      { order with status := .cancelled }).Valid := by
    rw [← OrderBook.cancel_eq_settle hget hopen]
    exact OrderBook.cancel_valid (h.sync.valid hbook) hget hopen
  have hsync := h.sync.settle hbook hget hopen hvalid rfl
    (g := Replay.cancelOrder e.sequencer.nextSeqId .traderRequest)
    fun logged _ hfacts => by
      rw [Order.eq_of_facts hfacts]
      rfl
  refine ⟨h.toLogInv.append hlegal
    ⟨rfl, rfl, fun _ hs => hs.cancelOrder _, rfl⟩, ?_⟩
  exact hsync.congr_view fun id => orderInLog_append e.log _ id

theorem forceCancel_inv (h : e.Inv completed basic noOrder) (hbasic : ¬ basic)
    {target : OrderId × OrderHash} {logged : Order}
    (hlogged : orderInLog e.log target.1 = some logged)
    (hhash : logged.orderHash = target.2) (wall : Nat → UInt64) :
    (e.forceCancel wall target).Inv completed basic noOrder := by
  have hlegal :
      LegalEvent basic e.log (.orderCancelled target.1 target.2 .adminForce) :=
    hhash ▸ .orderCancelled hlogged fun hb => absurd hb hbasic
  have hsync : BooksSync completed basic noOrder _ e.books :=
    h.sync.updateView target.1
      (Replay.cancelOrder e.sequencer.nextSeqId .adminForce) (fun _ _ hp => hp)
      (fun _ _ _ => ⟨hbasic, fun _ => rfl⟩) (fun _ _ => .inl rfl)
  refine ⟨h.toLogInv.append hlegal
    ⟨rfl, rfl, fun _ hs => hs.cancelOrder _, rfl⟩, ?_⟩
  exact hsync.congr_view fun id => orderInLog_append e.log _ id

def Targets (e : Engine) (targets : List (OrderId × OrderHash)) : Prop :=
  ∀ target ∈ targets, ∃ logged, orderInLog e.log target.1 = some logged ∧
    logged.orderHash = target.2

theorem Targets.forceCancel {targets : List (OrderId × OrderHash)}
    (h : Targets e targets) (wall : Nat → UInt64)
    (target : OrderId × OrderHash) :
    Targets (e.forceCancel wall target) targets := by
  intro target' hmem
  obtain ⟨logged, hlogged, hhash⟩ := h target' hmem
  have hview : orderInLog (e.forceCancel wall target).log target'.1 = _ :=
    orderInLog_append e.log _ _
  rw [hview, hlogged, viewStep_cancel]
  split
  · exact ⟨_, rfl, hhash⟩
  · exact ⟨_, rfl, hhash⟩

theorem foldl_forceCancel_inv (hbasic : ¬ basic) (wall : Nat → UInt64)
    {targets : List (OrderId × OrderHash)} (h : e.Inv completed basic noOrder)
    (htargets : Targets e targets) :
    (targets.foldl (Engine.forceCancel wall) e).Inv completed basic
      noOrder := by
  induction targets generalizing e with
  | nil => exact h
  | cons target targets ih =>
      obtain ⟨logged, hlogged, hhash⟩ := htargets target (.head _)
      refine ih (forceCancel_inv h hbasic hlogged hhash wall) ?_
      exact Targets.forceCancel
        (fun t ht => htargets t (.tail _ ht)) wall target

theorem targets_acceptedIn (h : e.LogInv basic) (marketId : String) :
    Targets e (e.log.filterMap (Engine.acceptedIn marketId)) := by
  intro target hmem
  obtain ⟨se, hse, htarget⟩ := List.mem_filterMap.mp hmem
  unfold Engine.acceptedIn at htarget
  cases hev : se.event with
  | orderAccepted order =>
      simp only [hev] at htarget
      split at htarget
      · obtain rfl := Option.some.inj htarget
        have hmem : order ∈ accepted e.log :=
          List.mem_filterMap.mpr ⟨se, hse, by simp [hev, Event.accepts]⟩
        obtain ⟨logged, hlogged, hterms⟩ := h.legal.accepted_view hmem
        exact ⟨logged, hlogged, by simpa using congrArg Order.orderHash hterms⟩
      · cases htarget
  | _ => simp [hev] at htarget

theorem cancelAllOrders_inv (h : e.Inv completed basic noOrder)
    (hbasic : ¬ basic) (marketId : String) (wall : Nat → UInt64) :
    (e.cancelAllOrders marketId wall).1.Inv completed basic noOrder := by
  unfold Engine.cancelAllOrders
  split
  · exact h
  · exact foldl_forceCancel_inv hbasic wall h
      (targets_acceptedIn h.toLogInv marketId)

end Cancel

/-! ## Markets -/

section Markets

variable {completed basic : Prop} {e : Engine}

theorem addMarket_inv (h : e.Inv completed basic noOrder)
    (config : MarketConfig) :
    (e.addMarket config).Inv completed basic noOrder :=
  { h with sync := h.sync.addMarket config.id.value }

theorem switchMarket_inv (h : e.Inv completed basic noOrder) {marketId : String}
    {source target : MarketStatus} {event : Event} {wall : Nat → UInt64}
    (hlegal : ∀ log, LegalEvent basic log event)
    (hneutral : ∀ id order seqId timestampMs,
      viewStep id order ⟨seqId, timestampMs, event⟩ = order)
    (hstate : ∀ state seqId timestampMs,
      stateStep state ⟨seqId, timestampMs, event⟩ = state)
    (hindex : ∀ index seqId timestampMs,
      Engine.indexAccepted index ⟨seqId, timestampMs, event⟩ = index) :
    (e.switchMarket marketId source target event wall).1.Inv completed basic
      noOrder := by
  obtain ⟨error, hrefused⟩ | ⟨market, hfind, htarget, hsource⟩ :=
    Engine.switchMarket_cases e marketId source target event wall
  · rw [hrefused]
    exact h
  rw [Engine.switchMarket_eq hfind htarget hsource]
  have hadded := addMarket_inv h { market with status := target }
  refine ⟨hadded.toLogInv.append (hlegal _)
    ⟨rfl, rfl, fun state hs => ?_, ?_⟩, ?_⟩
  · rw [hstate]
    exact hs
  · rw [hindex]
    rfl
  · refine hadded.sync.congr_view fun id => ?_
    exact (orderInLog_append _ _ id).trans (hneutral id _ _ _)

end Markets

/-! ## Recovery -/

section Restore

variable {completed basic : Prop} {e : Engine}

theorem restoreFromEvents_inv (h : e.Inv completed basic noOrder)
    {fresh : Engine}
    (hfresh : e.log = [] → fresh.Inv completed basic noOrder)
    (shuffle : Shuffle Order) :
    (fresh.restoreFromEvents shuffle e.log).1.Inv completed basic noOrder ∧
      (fresh.restoreFromEvents shuffle e.log).2 = .ok () := by
  obtain ⟨progress, hwalk, -⟩ := h.legal.walk_ok
  have hviews := walk_views hwalk
  unfold Engine.restoreFromEvents
  split
  · next hempty => exact ⟨hfresh (by simpa using hempty), rfl⟩
  simp only [replay, hwalk, bind, Except.bind, pure, Except.pure, and_true]
  refine ⟨⟨h.legal, ?_, ?_, get?_foldl_indexAccepted e.log⟩,
    h.sync.rebuild h.legal hviews.orders shuffle⟩
  · exact h.legal.nextSeqId
  · change StateStore.Agrees progress.state _
    rw [hviews.state]
    exact .refl _

end Restore

/-! ## Every step -/

theorem apply_inv {completed basic : Prop} {crypto : Crypto} {e : Engine}
    (h : e.Inv completed basic noOrder) {op : Op} (hadmits : e.Admits op)
    (hcompleted : completed → (e.apply crypto op).2.panicked = false)
    (hbasic : basic → op.isTrading = true) :
    (e.apply crypto op).1.Inv completed basic noOrder := by
  cases op with
  | addMarket config => exact addMarket_inv h config
  | processOrder signed env =>
      refine processOrder_inv h hadmits fun hc hpanic => ?_
      have hcalm := hcompleted hc
      simp [Engine.apply, hpanic, Reply.panicked] at hcalm
  | processCancel orderId traderId wall =>
      exact processCancel_inv h orderId traderId wall
  | pauseMarket marketId triggeredBy wall =>
      exact switchMarket_inv h (fun _ => .marketPaused _ _) (fun _ _ _ _ => rfl)
        (fun _ _ _ => rfl) (fun _ _ _ => rfl)
  | resumeMarket marketId triggeredBy wall =>
      exact switchMarket_inv h (fun _ => .marketResumed _ _)
        (fun _ _ _ _ => rfl) (fun _ _ _ => rfl) (fun _ _ _ => rfl)
  | cancelAllOrders marketId wall =>
      exact cancelAllOrders_inv h (fun hb => by cases hbasic hb) marketId wall
  | restoreFromEvents shuffle events =>
      obtain rfl : events = e.log := hadmits
      exact (restoreFromEvents_inv h (fun _ => h) shuffle).1

section Runs

variable {crypto : Crypto} {ops : List Op} {e : Engine}

/-- In every run the log is legal and the books are valid and follow it. -/
theorem Step.run_inv (h : Run (Step crypto) .new ops e) :
    e.Inv False False noOrder :=
  h.invariant (Engine.new_inv False False) fun e op e' hinv hstep => by
    obtain ⟨hadmits, rfl⟩ := hstep
    exact apply_inv hinv hadmits nofun nofun

/--
In every run of completed calls the books also cover what the log leaves open.
-/
theorem CompletedStep.run_inv (h : Run (CompletedStep crypto) .new ops e) :
    e.Inv True False noOrder :=
  h.invariant (Engine.new_inv True False) fun e op e' hinv hstep => by
    obtain ⟨⟨hadmits, rfl⟩, hcalm⟩ := hstep
    exact apply_inv hinv hadmits (fun _ => hcalm) nofun

/-- Without `cancel_all_orders` the stored orders have the status of the log. -/
theorem TradingStep.run_inv (h : Run (TradingStep crypto) .new ops e) :
    e.Inv False True noOrder :=
  h.invariant (Engine.new_inv False True) fun e op e' hinv hstep => by
    obtain ⟨⟨hadmits, rfl⟩, htrading⟩ := hstep
    exact apply_inv hinv hadmits (fun hcompleted => hcompleted.elim)
      fun _ => htrading

end Runs

end ClobApi
