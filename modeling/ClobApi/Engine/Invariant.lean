import ClobApi.Engine.BookSync
import ClobApi.Engine.Runs

/-!
# The engine's invariant

The log is legal, the sequencer counts it, the state store and the market index
hold what it says, and the books are in step with it.  Each operation is broken
into moves that append at most one event; a submission fills one resting order
at a time, as the matching loops do.
-/

namespace ClobApi

open Foundation

/-- The parts of the engine that the log alone determines. -/
structure Engine.LogInv (basic : Prop) (e : Engine) : Prop where
  legal : LegalLog basic e.log
  next : e.sequencer.nextSeqId = e.log.length + 1
  state : e.state.Agrees (stateInLog e.log)
  index : ∀ id, e.orderMarketIndex.get? id =
    (orderInLog e.log id).map fun order => order.marketId.value

structure Engine.Inv (completed basic : Prop) (pending : OrderId → Prop)
    (e : Engine) : Prop
    extends e.LogInv basic where
  sync : BooksSync completed basic pending (orderInLog e.log) e.books

def noOrder : OrderId → Prop := fun _ => False

theorem Engine.new_inv (completed basic : Prop) :
    Engine.new.Inv completed basic noOrder where
  legal := .nil
  next := rfl
  state := .refl _
  index := fun _ => rfl
  sync := .start

/-! ## Books that a registration leaves alone -/

theorem bookAt_addMarket (e : Engine) (config : MarketConfig)
    (marketId : String) :
    bookAt (e.addMarket config).books marketId = bookAt e.books marketId := by
  refine (bookAt_insert _ _ _ _).trans ?_
  split
  · next hmarket => rw [hmarket, bookAt]
  · rfl

theorem bookAt_switchMarket (e : Engine) (name : String)
    (source target : MarketStatus) (event : Event) (wall : Nat → UInt64)
    (marketId : String) :
    bookAt (e.switchMarket name source target event wall).1.books marketId =
      bookAt e.books marketId := by
  obtain ⟨error, hrefused⟩ | ⟨market, hfind, htarget, hsource⟩ :=
    Engine.switchMarket_cases e name source target event wall
  · rw [hrefused]
  · rw [Engine.switchMarket_eq hfind htarget hsource]
    exact bookAt_addMarket e _ marketId

/-! ## Appending one event -/

theorem get?_indexAccepted {index : HashMap OrderId String} {id : OrderId}
    {order : Option Order}
    (h : index.get? id = order.map fun order => order.marketId.value)
    (se : SequencedEvent) :
    (Engine.indexAccepted index se).get? id =
      (viewStep id order se).map fun order => order.marketId.value := by
  unfold Engine.indexAccepted viewStep
  cases se.event with
  | orderAccepted new =>
      simp only [HashMap.get?_insert]
      split
      · rfl
      · exact h
  | fill fill =>
      simp only [h]
      cases order <;> repeat' split
      all_goals rfl
  | orderCancelled cancelled hash reason =>
      simp only [h]
      cases order <;> split
      all_goals rfl
  | _ => exact h

theorem get?_foldl_indexAccepted (log : List SequencedEvent) (id : OrderId) :
    (log.foldl Engine.indexAccepted .empty).get? id =
      (orderInLog log id).map fun order => order.marketId.value := by
  induction log using List.reverseRecOn with
  | nil => rfl
  | append_singleton log se ih =>
      rw [List.foldl_append, List.foldl_cons, List.foldl_nil, orderInLog_append]
      exact get?_indexAccepted ih se

structure Appends (e e' : Engine) (event : Event)
    (timestampMs : UInt64) : Prop where
  log : e'.log = e.log ++ [⟨e.sequencer.nextSeqId, timestampMs, event⟩]
  next : e'.sequencer.nextSeqId = e.sequencer.nextSeqId + 1
  state : ∀ state, e.state.Agrees state →
    e'.state.Agrees
      (stateStep state ⟨e.sequencer.nextSeqId, timestampMs, event⟩)
  index : e'.orderMarketIndex =
    Engine.indexAccepted e.orderMarketIndex
      ⟨e.sequencer.nextSeqId, timestampMs, event⟩

theorem Engine.LogInv.append {basic : Prop} {e e' : Engine} {event : Event}
    {timestampMs : UInt64} (h : e.LogInv basic)
    (hlegal : LegalEvent basic e.log event)
    (happends : Appends e e' event timestampMs) : e'.LogInv basic where
  legal := by
    rw [happends.log, h.next]
    exact .append timestampMs h.legal hlegal
  next := by
    rw [happends.next, happends.log, h.next]
    simp
  state := by
    rw [happends.log, stateInLog_append]
    exact happends.state _ h.state
  index := by
    intro id
    rw [happends.index, happends.log, orderInLog_append]
    exact get?_indexAccepted (h.index id) _

/-! ## Accepting an order -/

section Accept

variable {completed basic : Prop} {e : Engine} {crypto : Crypto}
  {signed : SignedOrder} {env : CallEnv}

theorem afterAccept_appends (h : Engine.Submits crypto e signed env) :
    Appends e (e.afterAccept crypto signed env)
      (.orderAccepted
        (Engine.buildOrder crypto signed env e.sequencer.peekNextSeqId))
      (env.wall e.sequencer.nextSeqId) where
  log := rfl
  next := rfl
  state := by
    intro state hagrees
    have hnonce : state.lastNonce signed.traderId < signed.nonce := by
      rw [← hagrees.lastNonce]
      exact h.nonce
    simp only [stateStep, Replay.raiseNonce, Engine.buildOrder, gt_iff_lt,
      hnonce, if_true]
    exact hagrees.insertNonce _ _
  index := rfl

theorem accept_legal (h : e.LogInv basic)
    (hsubmits : Engine.Submits crypto e signed env)
    (hfresh : e.Admits (.processOrder signed env)) :
    LegalEvent basic e.log
      (.orderAccepted
        (Engine.buildOrder crypto signed env e.sequencer.peekNextSeqId)) :=
  .orderAccepted (orderInLog_eq_none hfresh) rfl rfl
    (Engine.checkIntake_ok hsubmits.intake).1 h.next

/-- The order accepted last is in the log and rests nowhere. -/
structure PendingOrder (e : Engine) (order : Order) : Prop where
  logged : ∃ logged, orderInLog e.log order.orderId = some logged ∧
    logged.core = order.core
  unstored : ∀ marketId, storedOrder e.books marketId order.orderId = none
  last : ∀ {id older}, orderInLog e.log id = some older → id ≠ order.orderId →
    older.createdSequence < order.createdSequence

theorem afterAccept_inv (h : e.Inv completed basic noOrder)
    (hsubmits : Engine.Submits crypto e signed env)
    (hfresh : e.Admits (.processOrder signed env)) :
    (e.afterAccept crypto signed env).Inv completed basic
      (fun id => id = env.newOrderId) ∧
      PendingOrder (e.afterAccept crypto signed env)
        (Engine.buildOrder crypto signed env e.sequencer.peekNextSeqId) := by
  have hnone : orderInLog e.log env.newOrderId = none :=
    orderInLog_eq_none hfresh
  have happends := afterAccept_appends hsubmits
  have hview : ∀ id, orderInLog (e.afterAccept crypto signed env).log id =
      if id = env.newOrderId then
        some (Engine.buildOrder crypto signed env e.sequencer.peekNextSeqId)
      else orderInLog e.log id := by
    intro id
    rw [happends.log, orderInLog_append]
    rfl
  have hlog :=
    h.toLogInv.append (accept_legal h.toLogInv hsubmits hfresh) happends
  refine ⟨⟨hlog, ?_⟩, ?_, ?_, fun {id older} holder hid => ?_⟩
  · have hsync : BooksSync completed basic
        (fun id => id = (Engine.buildOrder crypto signed env
          e.sequencer.peekNextSeqId).orderId) _ e.books := h.sync.accept hnone
    exact hsync.congr_view hview
  · exact ⟨_, by rw [hview]; exact if_pos rfl, rfl⟩
  · intro marketId
    rw [Option.eq_none_iff_forall_ne_some]
    intro live hstored
    obtain ⟨logged, hlogged, -⟩ := h.sync.stored hstored
    exact absurd hlogged (by simp [Engine.buildOrder, hnone])
  · change id ≠ env.newOrderId at hid
    rw [hview, if_neg hid] at holder
    have hle := (h.legal.loggedOrder holder).created_le
    have hnext := h.next
    change older.createdSequence < e.sequencer.nextSeqId
    omega

end Accept

/-! ## One fill -/

theorem Order.eq_of_facts {order order' : Order}
    (h : order.facts = order'.facts) :
    order = { order' with
      status := order.status
      lastUpdateSequence := order.lastUpdateSequence } := by
  cases order
  cases order'
  simpa [Order.facts, Order.core] using h

theorem LegalFill.of_facts {strict strict' : Prop} {fill : Fill}
    {taker taker' maker maker' : Order} (h : LegalFill strict fill taker maker)
    (htaker : taker'.facts = taker.facts) (hmaker : maker'.facts = maker.facts)
    (hlive : strict' → taker'.isClosed = false ∧ maker'.isClosed = false) :
    LegalFill strict' fill taker' maker' := by
  rw [Order.eq_of_facts htaker, Order.eq_of_facts hmaker] at hlive ⊢
  exact ⟨h.distinct, h.takerHash, h.makerHash, h.makerMarket, h.takerMarket,
    h.side, h.trader, h.price, h.crosses, h.positive, h.takerRoom,
    h.makerRoom, hlive⟩

theorem fillOrder_core {logged live : Order}
    (hfacts : logged.facts = live.facts)
    (hle : live.filledSizeLots ≤ live.origSizeLots) {qty : UInt64}
    (hqty : qty ≤ live.remainingSizeLots) (seqId seqId' : Nat) :
    (Replay.fillOrder seqId qty logged).core =
      (applyFillTo live qty seqId').core := by
  rw [Order.eq_of_facts hfacts, fillOrder_eq_applyFillTo]
  · rfl
  · exact hle
  · exact hqty

/--
The engine in the middle of matching, with the fills made so far in its log.
-/
structure Matching (completed basic : Prop) (e : Engine)
    (st : MatchState) : Prop where
  inv : e.Inv completed basic (fun id => id = st.taker.orderId)
  pending : PendingOrder e st.taker
  book : e.books.get? st.taker.marketId.value = some st.book
  valid : st.Valid

def Engine.fillOnce (wall : Nat → UInt64) (e : Engine) (st : MatchState)
    (maker : Order) (seqId : Nat) (nowMs : UInt64) : Engine :=
  sequenceFill wall
    { e with
      books := e.books.insert st.taker.marketId.value
        (st.fillAgainst maker seqId nowMs).book }
    (makeFill st.taker maker maker.priceTicks (st.fillQty maker) seqId nowMs)

theorem fillOnce_appends (wall : Nat → UInt64) (e : Engine) (st : MatchState)
    (maker : Order) (seqId : Nat) (nowMs : UInt64) :
    Appends e (e.fillOnce wall st maker seqId nowMs)
      (.fill (makeFill st.taker maker maker.priceTicks
        (st.fillQty maker) seqId nowMs))
      (wall e.sequencer.nextSeqId) where
  log := rfl
  next := rfl
  state := fun _ h => h.applyFill _ _ _
  index := rfl

section Fill

variable {completed basic : Prop} {e : Engine} {st : MatchState} {maker : Order}

theorem Matching.logged_maker (h : Matching completed basic e st)
    (meets : st.Meets maker) :
    st.book.get maker.orderId = some maker ∧
      maker.side = st.taker.side.opposite ∧
      maker.isClosed = false ∧ ∃ logged,
        orderInLog e.log maker.orderId = some logged ∧
        Matches basic st.taker.marketId.value logged maker := by
  obtain ⟨hget, hside, hopen⟩ := h.valid.get_maker meets
  exact ⟨hget, hside, hopen,
    h.inv.sync.stored (storedOrder_eq_some.mpr ⟨_, h.book, hget⟩)⟩

theorem Matching.distinct (h : Matching completed basic e st)
    (meets : st.Meets maker) : st.taker.orderId ≠ maker.orderId := by
  intro hid
  have hstored :=
    storedOrder_eq_some.mpr ⟨_, h.book, (h.valid.get_maker meets).1⟩
  rw [← hid, h.pending.unstored] at hstored
  cases hstored

theorem Matching.legalFill (h : Matching completed basic e st)
    (meets : st.Meets maker) (trader : maker.traderId ≠ st.taker.traderId)
    (seqId : Nat) (nowMs : UInt64) :
    LegalFill True
      (makeFill st.taker maker maker.priceTicks (st.fillQty maker) seqId nowMs)
      st.taker maker := by
  obtain ⟨hget, hside, hopen, logged, -, hmatches⟩ := h.logged_maker meets
  have hmarket : st.taker.marketId = maker.marketId := by
    have := hmatches.market
    cases hm : maker.marketId
    cases ht : st.taker.marketId
    simp_all
  have htaker : st.taker.isClosed = false := by
    by_contra hclosed
    exact meets.active (h.valid.closed (by simpa using hclosed))
  exact ⟨h.distinct meets, rfl, rfl, rfl, hmarket, hside, trader, rfl,
    meets.crosses, h.valid.fillQty_ne_zero meets, MatchState.fillQty_le_taker,
    MatchState.fillQty_le_maker, fun _ => ⟨htaker, hopen⟩⟩

theorem Matching.view_fillOnce (h : Matching completed basic e st)
    (meets : st.Meets maker) (wall : Nat → UInt64) (seqId : Nat)
    (nowMs : UInt64) (id : OrderId) :
    orderInLog (e.fillOnce wall st maker seqId nowMs).log id =
      if id = st.taker.orderId ∨ id = maker.orderId then
        (orderInLog e.log id).map
          (Replay.fillOrder e.sequencer.nextSeqId (st.fillQty maker))
      else orderInLog e.log id := by
  rw [(fillOnce_appends wall e st maker seqId nowMs).log, orderInLog_append,
    viewStep_fill (h.distinct meets)]
  rfl

theorem Matching.unstored_fillOnce (h : Matching completed basic e st)
    (meets : st.Meets maker) (wall : Nat → UInt64) (seqId : Nat)
    (nowMs : UInt64) (marketId : String) :
    storedOrder (e.fillOnce wall st maker seqId nowMs).books marketId
      st.taker.orderId = none := by
  change storedOrder (e.books.insert _ (st.book.settle maker.orderId _))
    marketId _ = none
  rw [storedOrder_insert]
  split
  · rw [OrderBook.get_settle, if_neg (h.distinct meets)]
    simpa [storedOrder, h.book] using h.pending.unstored st.taker.marketId.value
  · exact h.pending.unstored marketId

theorem Matching.sync_fillOnce (h : Matching completed basic e st)
    (meets : st.Meets maker) (wall : Nat → UInt64) (seqId : Nat)
    (nowMs : UInt64) :
    BooksSync completed basic (fun id => id = st.taker.orderId)
      (orderInLog (e.fillOnce wall st maker seqId nowMs).log)
      (e.fillOnce wall st maker seqId nowMs).books := by
  obtain ⟨hget, -, hopen, -⟩ := h.logged_maker meets
  have hmaker := h.inv.sync.settle h.book hget hopen
    (OrderBook.fillMaker_valid h.valid.book hget hopen
      MatchState.fillQty_le_maker
      (h.valid.fillQty_ne_zero meets) seqId) rfl
    (g := Replay.fillOrder e.sequencer.nextSeqId (st.fillQty maker))
    fun logged _ hfacts =>
      fillOrder_core hfacts (h.valid.book.consistent hget).filled_le
      MatchState.fillQty_le_maker _ _
  -- the books do not store the taker: only the log follows its side of the fill
  have hboth := hmaker.updateView st.taker.orderId
    (Replay.fillOrder e.sequencer.nextSeqId (st.fillQty maker))
      (fun _ _ hp => hp)
    (fun marketId live hstored => absurd
      ((h.unstored_fillOnce meets wall seqId nowMs marketId).symm.trans hstored)
        nofun)
    (fun _ _ => .inr rfl)
  refine hboth.congr_view fun id => ?_
  rw [h.view_fillOnce meets]
  by_cases htaker : id = st.taker.orderId
  · simp [htaker, h.distinct meets]
  · simp [htaker]

theorem Matching.legalEvent (h : Matching completed basic e st)
    (meets : st.Meets maker) (trader : maker.traderId ≠ st.taker.traderId)
    (seqId : Nat) (nowMs : UInt64) :
    LegalEvent basic e.log
      (.fill (makeFill st.taker maker maker.priceTicks
        (st.fillQty maker) seqId nowMs)) := by
  obtain ⟨hget, -, -, loggedMaker, hmaker, hmatches⟩ := h.logged_maker meets
  obtain ⟨loggedTaker, htaker, hcore⟩ := h.pending.logged
  have hlive := h.legalFill meets trader seqId nowMs
  refine .fill htaker hmaker
    (hlive.of_facts (Order.facts_eq_of_core hcore) hmatches.facts
      fun hbasic => ?_)
  rw [Order.isClosed_eq_of_core hcore,
    Order.isClosed_eq_of_core (hmatches.core hbasic)]
  exact hlive.live trivial

theorem Matching.fill (h : Matching completed basic e st)
    (meets : st.Meets maker) (trader : maker.traderId ≠ st.taker.traderId)
    (wall : Nat → UInt64) (seqId : Nat) (nowMs : UInt64) :
    Matching completed basic (e.fillOnce wall st maker seqId nowMs)
      (st.fillAgainst maker seqId nowMs) := by
  obtain ⟨loggedTaker, htaker, hcore⟩ := h.pending.logged
  refine ⟨⟨h.inv.toLogInv.append (h.legalEvent meets trader seqId nowMs)
    (fillOnce_appends wall e st maker seqId nowMs),
      h.sync_fillOnce meets wall seqId nowMs⟩,
    ⟨⟨_, ?_, fillOrder_core
      (Order.facts_eq_of_core hcore) h.valid.taker.filled_le
      MatchState.fillQty_le_taker e.sequencer.nextSeqId seqId⟩,
      h.unstored_fillOnce meets wall seqId nowMs,
        fun {id older} holder hid => ?_⟩,
    HashMap.get?_insert_self _ _ _, h.valid.fillAgainst meets⟩
  · change orderInLog _ st.taker.orderId = _
    rw [h.view_fillOnce meets, if_pos (.inl rfl), htaker]
    rfl
  · rw [h.view_fillOnce meets] at holder
    split at holder
    · obtain ⟨old, hold, rfl⟩ := Option.map_eq_some_iff.mp holder
      have hlast := h.pending.last hold hid
      exact hlast
    · exact h.pending.last holder hid

end Fill

/-! ## Executing an accepted order -/

section Execute

variable {completed basic : Prop} {e : Engine} {st st' : MatchState}
  {seqId : Nat}
  {nowMs : UInt64} {wall : Nat → UInt64}

/-- The engine with the book of the matching state, and its fills in the log. -/
def Engine.midway (wall : Nat → UInt64) (e : Engine) (marketId : String)
    (st : MatchState) : Engine :=
  st.fills.foldl
    (sequenceFill wall) { e with books := e.books.insert marketId st.book }

theorem midway_congr {marketId : String} (hbook : st'.book = st.book)
    (hfills : st'.fills = st.fills) :
    e.midway wall marketId st' = e.midway wall marketId st := by
  rw [Engine.midway, Engine.midway, hbook, hfills]

theorem executeOrder_eq {order : Order} {env : CallEnv} {book : OrderBook}
    {e' : Engine} (hbook : e.books.get? order.marketId.value = some book)
    (hst : matchOrder book order order.createdSequence env.nowMs = st)
    (hresidual :
      ((e.midway env.wall order.marketId.value st).sequenceStpCancel env.wall
      st.taker).insertResidual st.taker = some e') :
    e.executeOrder order env =
      (e', .ok ⟨order.orderId, order.orderHash, order.createdSequence, st.fills,
        st.taker.status, false⟩) := by
  unfold Engine.executeOrder
  unfold Engine.midway at hresidual
  simp only [hbook, hst, hresidual]

theorem foldl_sequenceFill_books (fills : List Fill) (e : Engine)
    (books : HashMap String OrderBook) :
    fills.foldl (Engine.sequenceFill wall) { e with books } =
      { fills.foldl (Engine.sequenceFill wall) e with books } := by
  induction fills generalizing e with
  | nil => rfl
  | cons fill fills ih => exact ih (Engine.sequenceFill wall e fill)

theorem midway_fillAgainst (e : Engine) (st : MatchState) (maker : Order) :
    e.midway wall st.taker.marketId.value (st.fillAgainst maker seqId nowMs) =
      (e.midway wall st.taker.marketId.value st).fillOnce wall st maker
        seqId nowMs := by
  unfold Engine.midway Engine.fillOnce
  rw [foldl_sequenceFill_books _ e
    (e.books.insert _ (st.fillAgainst maker seqId nowMs).book),
    foldl_sequenceFill_books _ e (e.books.insert _ st.book)]
  simp only [HashMap.insert_insert]
  simp only [MatchState.fillAgainst, List.foldl_append, List.foldl_cons,
    List.foldl_nil]
  rfl

/-- Matching proceeds fill by fill, in the log as in the book. -/
theorem Matching.run (hrun : FillRun seqId nowMs st st')
    (h : Matching completed basic
      (e.midway wall st.taker.marketId.value st) st) :
    Matching completed basic
      (e.midway wall st.taker.marketId.value st') st' := by
  induction hrun with
  | refl => exact h
  | @tail mid last hmid hstep ih =>
      have hmarket : mid.taker.marketId = st.taker.marketId := by
        simpa using congrArg Order.marketId (FillRun.taker_terms hmid)
      cases hstep with
      | fill meets trader =>
          rw [← hmarket] at ih ⊢
          rw [midway_fillAgainst]
          exact ih.fill meets trader wall seqId nowMs

end Execute

end ClobApi
