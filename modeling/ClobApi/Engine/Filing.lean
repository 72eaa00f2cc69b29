import ClobApi.Engine.Acceptance

/-!
# Where an order is kept

A book takes in an order if its own submission leaves it open, and every
recovery keeps in the books exactly the orders that the log leaves open.
Nothing else brings an order into a book or out of it.
-/

namespace ClobApi

open Foundation

/-! ## The taker after matching -/

section Taker

theorem FillRun.get_isSome {seqId : Nat} {nowMs : UInt64} {st st' : MatchState}
    (h : FillRun seqId nowMs st st') (id : OrderId) :
    (st'.book.get id).isSome = (st.book.get id).isSome := by
  induction h with
  | refl => rfl
  | tail _ hstep ih =>
      cases hstep with
      | fill meets trader =>
          rw [← ih]
          change ((OrderBook.settle _ _ _).get id).isSome = _
          rw [OrderBook.get_settle]
          split
          · simp
          · rfl

variable {completed basic : Prop} {crypto : Crypto} {e e' : Engine}
  {signed : SignedOrder} {env : CallEnv} {book : OrderBook} {st : MatchState}

theorem orderInLog_stpCancel (wall : Nat → UInt64) (e : Engine) {order : Order}
    (hstatus : order.status = .cancelledStp) :
    orderInLog (e.sequenceStpCancel wall order).log order.orderId =
      (orderInLog e.log order.orderId).map
        (Replay.cancelOrder e.sequencer.nextSeqId .selfTradePrevention) := by
  rw [(stpCancel_appends wall e order hstatus).log, orderInLog_append,
    viewStep_cancel, if_pos rfl]

/-- What matching leaves of the taker, in the log and for its book. -/
structure Engine.Matched (e' : Engine) (id : OrderId) (book : OrderBook)
    (st : MatchState) : Prop where
  logged : ∃ logged, orderInLog e'.log id = some logged ∧
    logged.core = st.taker.core
  remaining : st.taker.isClosed = false → st.taker.remainingSizeLots > 0
  stored : ∀ id', (st.book.get id').isSome = (book.get id').isSome

theorem Engine.Submits.matched (hsubmits : Submits crypto e signed env)
    (h : e.Inv completed basic noOrder)
    (hfresh : e.Admits (.processOrder signed env))
    (hbook : e.books.get? signed.marketId.value = some book)
    (hst : matchOrder book
      (buildOrder crypto signed env e.sequencer.peekNextSeqId)
      e.sequencer.peekNextSeqId env.nowMs = st)
    (hexecuted : e.Executed crypto signed env st e') :
    e'.Matched env.newOrderId book st := by
  have hstart := matching_start h hsubmits hfresh hbook
  obtain ⟨mid, hrun, hend⟩ :=
    matchOrder_run hstart.valid e.sequencer.peekNextSeqId env.nowMs
  rw [hst] at hend
  have hmid : Matching completed basic ((e.afterAccept crypto signed env).midway
      env.wall signed.marketId.value mid) mid := hstart.run hrun
  obtain ⟨hsameBook, hsameFills, -⟩ := hend.same
  have hid : mid.taker.orderId = env.newOrderId :=
    congrArg Order.orderId (FillRun.taker_terms hrun)
  obtain ⟨logged, hlogged, hcore⟩ := hmid.pending.logged
  rw [hid] at hlogged
  have hlog : e'.log = (((e.afterAccept crypto signed env).midway env.wall
      signed.marketId.value mid).sequenceStpCancel env.wall st.taker).log := by
    rw [hexecuted.writes.log, ← midway_congr hsameBook hsameFills]
    exact (afterAccept_writes.trans ((midway_writes env.wall _ _ st).trans
      (stpCancel_writes env.wall _ st.taker))).log.symm
  have hstored : ∀ id, (st.book.get id).isSome = (book.get id).isSome := by
    intro id
    rw [hsameBook]
    exact hrun.get_isSome id
  -- without a self-trade the taker is the one that the fills have left
  have hfilled : st.taker = mid.taker →
      e'.Matched env.newOrderId book st := by
    intro htaker
    refine ⟨⟨logged, ?_, by rw [htaker, hcore]⟩, fun hopen => ?_, hstored⟩
    · rw [hlog, htaker, Engine.sequenceStpCancel,
        if_neg hmid.valid.uncancelled]
      exact hlogged
    · rw [htaker] at hopen ⊢
      exact UInt64.pos_iff_ne_zero.mpr
        (hmid.valid.taker.remaining_ne_zero hopen)
  cases hend with
  | filled full => exact hfilled rfl
  | exhausted none => exact hfilled rfl
  | selfTrade meets trader =>
      have hview := orderInLog_stpCancel env.wall
        ((e.afterAccept crypto signed env).midway env.wall
          signed.marketId.value mid)
        (rfl : (cancelTaker mid.taker e.sequencer.peekNextSeqId).status = _)
      change orderInLog _ mid.taker.orderId =
        (orderInLog _ mid.taker.orderId).map _ at hview
      rw [← hlog, hid, hlogged, Option.map_some] at hview
      refine ⟨⟨_, hview, ?_⟩, (fun hopen => by cases hopen), hstored⟩
      rw [Order.eq_of_facts (Order.facts_eq_of_core hcore)]
      rfl

end Taker

/-! ## Filings -/

def openInLog (log : List SequencedEvent) (id : OrderId) : Bool :=
  (orderInLog log id).any fun order => !order.isClosed

namespace Engine

/-- Whether the operation files the order `id` in a book, if it decides that. -/
def filing (crypto : Crypto) (id : OrderId) (e : Engine) (op : Op) :
    Option Bool :=
  match op with
  | .processOrder signed env =>
      if (e.acceptance crypto op).isSome ∧ env.newOrderId = id then
        some ((e.books.get? signed.marketId.value).isSome &&
          openInLog (e.apply crypto op).1.log id)
      else none
  | .restoreFromEvents _ events =>
      if events.isEmpty then none else some (openInLog events id)
  | _ => none

def filings (crypto : Crypto) (id : OrderId) : Engine → List Op → List Bool :=
  emissions (fun e op => (e.apply crypto op).1) fun e op =>
    (e.filing crypto id op).toList

end Engine

/-- Some book stores the order `id`. -/
def Held (books : HashMap String OrderBook) (id : OrderId) : Prop :=
  ∃ marketId live, storedOrder books marketId id = some live

section Held

variable {books books' : HashMap String OrderBook} {id : OrderId}

theorem held_iff : Held books id ↔
    ∃ marketId, (storedOrder books marketId id).isSome = true := by
  simp only [Held, Option.isSome_iff_exists]

theorem Held.congr (h : ∀ marketId,
    (storedOrder books' marketId id).isSome =
      (storedOrder books marketId id).isSome) :
    Held books' id ↔ Held books id := by
  simp only [held_iff, h]

theorem held_insert {marketId : String} {book book' : OrderBook}
    (hbook : books.get? marketId = some book)
    (hsame : (book'.get id).isSome = (book.get id).isSome) :
    Held (books.insert marketId book') id ↔ Held books id := by
  refine Held.congr fun marketId' => ?_
  rw [storedOrder_insert]
  split
  · next hmarket => simp [storedOrder, hmarket, hbook, hsame]
  · rfl

theorem Held.of_bookAt
    (h : ∀ marketId, bookAt books' marketId = bookAt books marketId) :
    Held books' id ↔ Held books id :=
  Held.congr fun marketId => by rw [storedOrder_of_bookAt (h marketId)]

end Held

/-! ## What every operation does to the holdings -/

section Apply

variable {crypto : Crypto} {e : Engine} {signed : SignedOrder} {env : CallEnv}
  {id : OrderId}

theorem held_processCancel (orderId : OrderId) (traderId : String)
    (wall : Nat → UInt64) :
    Held (e.processCancel orderId traderId wall).1.books id ↔
      Held e.books id := by
  obtain ⟨hsame, -⟩ | ⟨marketId, book, order, hcancels⟩ :=
    Engine.processCancel_cases e orderId traderId wall
  · rw [hsame]
  · rw [hcancels.processCancel_eq]
    refine held_insert hcancels.listed ?_
    rw [OrderBook.cancel_eq_settle hcancels.stored hcancels.active,
      OrderBook.get_settle]
    split
    · simp
    · rfl

theorem foldl_forceCancel_books (wall : Nat → UInt64)
    (targets : List (OrderId × OrderHash)) (e : Engine) :
    (targets.foldl (Engine.forceCancel wall) e).books = e.books := by
  induction targets generalizing e with
  | nil => rfl
  | cons target targets ih => exact ih (Engine.forceCancel wall e target)

theorem cancelAllOrders_books (e : Engine) (marketId : String)
    (wall : Nat → UInt64) :
    (e.cancelAllOrders marketId wall).1.books = e.books := by
  unfold Engine.cancelAllOrders
  split
  · rfl
  · exact foldl_forceCancel_books wall _ e

theorem held_restoreFromEvents {basic : Prop} (h : e.LogInv basic)
    (shuffle : Shuffle Order) (hne : e.log ≠ []) :
    Held (e.restoreFromEvents shuffle e.log).1.books id ↔
      openInLog e.log id = true := by
  obtain ⟨orders, horders, hreplay⟩ := h.legal.replay_ok shuffle
  have hbooks : (e.restoreFromEvents shuffle e.log).1.books =
      Replay.buildBooks shuffle orders := by
    simp [Engine.restoreFromEvents, hne, hreplay]
  have hbook := fun marketId =>
    (buildBooks_book h.legal horders shuffle marketId).2
  rw [hbooks]
  constructor
  · rintro ⟨marketId, live, hstored⟩
    obtain ⟨book, hget, hlive⟩ := storedOrder_eq_some.mp hstored
    obtain ⟨hview, hopen, -⟩ :=
      (hbook marketId id live).mp (by rw [hget]; exact hlive)
    simp [openInLog, hview, hopen]
  · intro hopen
    obtain ⟨order, hview, hlive⟩ := (Option.any_eq_true _ _).mp hopen
    have hstored := (hbook order.marketId.value id order).mpr
      ⟨hview, by simpa using hlive, rfl⟩
    cases hget : (Replay.buildBooks shuffle orders).get?
        order.marketId.value with
    | none => simp [hget, OrderBook.new, OrderBook.get] at hstored
    | some book =>
        rw [hget, Option.getD_some] at hstored
        exact ⟨_, order, storedOrder_eq_some.mpr ⟨book, hget, hstored⟩⟩

theorem residualBook_isSome {e' : Engine} {book : OrderBook} {st : MatchState}
    (h : e'.Matched id book st) (hid : st.taker.orderId = id) (id' : OrderId) :
    (st.residualBook.get id').isSome =
      ((book.get id').isSome || (openInLog e'.log id && id' = id)) := by
  obtain ⟨logged, hlogged, hcore⟩ := h.logged
  have hopen : openInLog e'.log id = !st.taker.isClosed := by
    simp [openInLog, hlogged, Order.isClosed_eq_of_core hcore]
  unfold MatchState.residualBook
  rw [hopen]
  cases hclosed : st.taker.isClosed with
  | true => simp [h.stored]
  | false =>
      simp only [Bool.not_false, h.remaining hclosed, and_self, if_true,
        OrderBook.get_insert, hid, Bool.true_and]
      split <;> simp [*, h.stored]

theorem held_executed {e' : Engine} {book : OrderBook} {st : MatchState}
    (hbook : e.books.get? signed.marketId.value = some book)
    (hexecuted : e.Executed crypto signed env st e')
    (hmatched : e'.Matched env.newOrderId book st)
    (hid : st.taker.orderId = env.newOrderId) :
    Held e'.books id ↔ Held e.books id ∨
      (openInLog e'.log env.newOrderId = true ∧ id = env.newOrderId) := by
  have hstored : ∀ marketId, (storedOrder e'.books marketId id).isSome =
      ((storedOrder e.books marketId id).isSome ||
        (marketId = signed.marketId.value &&
          (openInLog e'.log env.newOrderId && id = env.newOrderId))) := by
    intro marketId
    rw [storedOrder, hexecuted.books]
    split
    · next hmarket =>
        simp [storedOrder, hmarket, hbook, residualBook_isSome hmatched hid]
    · next hmarket => simp [storedOrder, hmarket]
  simp only [held_iff, hstored, Bool.or_eq_true, Bool.and_eq_true,
    decide_eq_true_eq, exists_or, exists_eq_left]

theorem held_processOrder {completed basic : Prop}
    (h : e.Inv completed basic noOrder)
    (hfresh : e.Admits (.processOrder signed env)) :
    Held (e.apply crypto (.processOrder signed env)).1.books id ↔
      (e.filing crypto id (.processOrder signed env)).elim (Held e.books id)
        (· = true) := by
  have hunheld : env.newOrderId = id → ¬ Held e.books id := by
    rintro rfl ⟨marketId, live, hstored⟩
    obtain ⟨logged, hlogged, -⟩ := h.sync.stored hstored
    simp [orderInLog_eq_none hfresh] at hlogged
  by_cases hsubmits : Engine.Submits crypto e signed env
  · have hsome : (e.acceptance crypto (.processOrder signed env)).isSome =
        true := by
      rw [Engine.acceptance_of_submits hsubmits]
      rfl
    cases hbook : e.books.get? signed.marketId.value with
    | none =>
        have hbooks : (e.apply crypto (.processOrder signed env)).1.books =
            e.books := by
          simp only [Engine.apply, hsubmits.panics hbook]
          rfl
        rw [hbooks]
        by_cases hid : env.newOrderId = id
        · simp [Engine.filing, hsome, hid, hbook, hunheld hid]
        · simp [Engine.filing, hid]
    | some book =>
        obtain ⟨e', hdone, hexecuted⟩ := hsubmits.completes hbook rfl rfl
        have hmatched := hsubmits.matched h hfresh hbook rfl hexecuted
        have hafter : (e.apply crypto (.processOrder signed env)).1 = e' := by
          simp only [Engine.apply, hdone]
        have htaker := congrArg Order.orderId (matchOrder_terms book
          (Engine.buildOrder crypto signed env e.sequencer.peekNextSeqId)
          e.sequencer.peekNextSeqId env.nowMs)
        rw [Engine.filing, hafter,
          held_executed hbook hexecuted hmatched htaker]
        by_cases hid : env.newOrderId = id
        · simp [hsome, hid, hbook, hunheld hid]
        · simp [hid, Ne.symm hid]
  · simp [Engine.apply, (Engine.processOrder_rejects hsubmits).1,
      Engine.filing, Engine.acceptance_of_not_submits hsubmits]

theorem held_apply {completed basic : Prop} (h : e.Inv completed basic noOrder)
    {op : Op} (hadmits : e.Admits op) :
    Held (e.apply crypto op).1.books id ↔
      (e.filing crypto id op).elim (Held e.books id) (· = true) := by
  cases op with
  | addMarket config => exact Held.of_bookAt (bookAt_addMarket e config)
  | processOrder signed env => exact held_processOrder h hadmits
  | processCancel orderId traderId wall =>
      exact held_processCancel orderId traderId wall
  | pauseMarket marketId triggeredBy wall =>
      exact Held.of_bookAt (bookAt_switchMarket e marketId _ _ _ wall)
  | resumeMarket marketId triggeredBy wall =>
      exact Held.of_bookAt (bookAt_switchMarket e marketId _ _ _ wall)
  | cancelAllOrders marketId wall =>
      simp only [Engine.apply, cancelAllOrders_books]
      rfl
  | restoreFromEvents shuffle events =>
      obtain rfl : events = e.log := hadmits
      by_cases hne : e.log = []
      · simp [Engine.apply, Engine.filing, Engine.restoreFromEvents, hne]
      · simpa [Engine.apply, Engine.filing, hne] using
          held_restoreFromEvents h.toLogInv shuffle hne

/-- The last filing decides whether an order is in the books. -/
theorem Step.run_held {ops : List Op} (h : Run (Step crypto) .new ops e)
    (id : OrderId) :
    Held e.books id ↔
      (Engine.new.filings crypto id ops).getLast? = some true := by
  induction h with
  | start =>
      simp [Held, storedOrder, Engine.new, Engine.filings, emissions]
  | @next ops e op e' hrun hstep ih =>
      obtain ⟨hadmits, rfl⟩ := hstep
      rw [held_apply (Step.run_inv hrun) hadmits, Engine.filings,
        emissions_append, ← Engine.applyAll, ← Step.run_applyAll hrun]
      cases hfiling : e.filing crypto id op with
      | none => simpa [Engine.filings] using ih
      | some filed => simp

end Apply

/-! ## Lookups -/

section Lookups

variable {completed basic : Prop} {e : Engine} {order : Order}

theorem findOrder_eq (h : e.Inv completed basic noOrder)
    (hmem : order ∈ accepted e.log) :
    e.findOrder order.orderId =
      storedOrder e.books order.marketId.value order.orderId := by
  obtain ⟨logged, hlogged, hterms⟩ := h.legal.accepted_view hmem
  have hmarket : logged.marketId = order.marketId := by
    simpa using congrArg Order.marketId hterms
  unfold Engine.findOrder storedOrder
  rw [h.index, hlogged]
  simp only [Option.map_some, hmarket]
  rfl

theorem held_iff_stored (h : e.Inv completed basic noOrder)
    (hmem : order ∈ accepted e.log) :
    Held e.books order.orderId ↔
      ∃ live, storedOrder e.books order.marketId.value order.orderId =
        some live := by
  constructor
  · rintro ⟨marketId, live, hstored⟩
    obtain ⟨logged, hlogged, hmatches⟩ := h.sync.stored hstored
    obtain ⟨logged', hlogged', hterms⟩ := h.legal.accepted_view hmem
    obtain rfl := Option.some.inj (hlogged.symm.trans hlogged')
    have hmarket : logged.marketId = order.marketId := by
      simpa using congrArg Order.marketId hterms
    rw [← hmatches.logged_market, hmarket] at hstored
    exact ⟨live, hstored⟩
  · rintro ⟨live, hstored⟩
    exact ⟨_, live, hstored⟩

end Lookups

end ClobApi
