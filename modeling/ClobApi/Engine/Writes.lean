import ClobApi.Engine.Preservation

/-!
# What an operation writes to the log

Every operation appends a list of events and numbers them from the next sequence
number on.
-/

namespace ClobApi

open Foundation

def numbered (wall : Nat → UInt64) : Nat → List Event → List SequencedEvent
  | _, [] => []
  | seqId, event :: events =>
      ⟨seqId, wall seqId, event⟩ :: numbered wall (seqId + 1) events

@[simp] theorem length_numbered (wall : Nat → UInt64) (seqId : Nat)
    (events : List Event) :
    (numbered wall seqId events).length = events.length := by
  induction events generalizing seqId with
  | nil => rfl
  | cons event events ih => simp [numbered, ih]

theorem numbered_append (wall : Nat → UInt64) (seqId : Nat)
    (events events' : List Event) :
    numbered wall seqId (events ++ events') =
      numbered wall seqId events ++
        numbered wall (seqId + events.length) events' := by
  induction events generalizing seqId with
  | nil => rfl
  | cons event events ih =>
      simp only [List.cons_append, numbered, ih, List.length_cons]
      congr 3
      omega

theorem map_event_numbered (wall : Nat → UInt64) (seqId : Nat)
    (events : List Event) :
    (numbered wall seqId events).map SequencedEvent.event = events := by
  induction events generalizing seqId with
  | nil => rfl
  | cons event events ih => simp [numbered, ih]

theorem mem_numbered {wall : Nat → UInt64} {seqId : Nat} {events : List Event}
    {se : SequencedEvent} (h : se ∈ numbered wall seqId events) :
    se.event ∈ events ∧ seqId ≤ se.seqId := by
  induction events generalizing seqId with
  | nil => cases h
  | cons event events ih =>
      rcases List.mem_cons.mp h with rfl | hlater
      · exact ⟨.head _, Nat.le_refl _⟩
      · obtain ⟨hevent, hle⟩ := ih hlater
        exact ⟨.tail _ hevent, Nat.le_of_succ_le hle⟩

/-! ## Appending events -/

structure Writes (wall : Nat → UInt64) (e e' : Engine)
    (events : List Event) : Prop where
  log : e'.log = e.log ++ numbered wall e.sequencer.nextSeqId events
  next : e'.sequencer.nextSeqId = e.sequencer.nextSeqId + events.length

section Writes

variable {wall : Nat → UInt64} {e e' e'' : Engine} {events events' : List Event}

theorem Writes.none (hlog : e'.log = e.log)
    (hnext : e'.sequencer.nextSeqId = e.sequencer.nextSeqId) :
    Writes wall e e' [] :=
  ⟨by simp [hlog, numbered], hnext⟩

theorem Writes.trans (h : Writes wall e e' events)
    (h' : Writes wall e' e'' events') :
    Writes wall e e'' (events ++ events') where
  log := by
    rw [h'.log, h.log, h.next, numbered_append, List.append_assoc]
  next := by
    rw [h'.next, h.next, List.length_append, Nat.add_assoc]

theorem Writes.foldl {α : Type} {f : Engine → α → Engine} {event : α → Event}
    (hf : ∀ e a, Writes wall e (f e a) [event a]) (list : List α) (e : Engine) :
    Writes wall e (list.foldl f e) (list.map event) := by
  induction list generalizing e with
  | nil => exact .none rfl rfl
  | cons a list ih => exact (hf e a).trans (ih (f e a))

theorem Writes.log_extends (h : Writes wall e e' events) : e.log <+: e'.log :=
  ⟨_, h.log.symm⟩

theorem accepted_eq (log : List SequencedEvent) :
    accepted log =
      (log.map SequencedEvent.event).filterMap Event.accepts := by
  rw [List.filterMap_map]
  rfl

theorem Writes.accepted (h : Writes wall e e' events) :
    accepted e'.log = accepted e.log ++ events.filterMap Event.accepts := by
  rw [accepted_eq, accepted_eq, h.log, List.map_append, map_event_numbered,
    List.filterMap_append]

end Writes

/-! ## What matching leaves alone -/

/-- The tables that only acceptances and market changes write. -/
structure SameTables (e e' : Engine) : Prop where
  markets : e'.markets = e.markets
  index : e'.orderMarketIndex = e.orderMarketIndex
  idempotency : e'.sequencer.idempotency = e.sequencer.idempotency
  nonces : e'.state.nonces = e.state.nonces

theorem SameTables.refl (e : Engine) : SameTables e e := ⟨rfl, rfl, rfl, rfl⟩

theorem SameTables.trans {e e' e'' : Engine} (h : SameTables e e')
    (h' : SameTables e' e'') : SameTables e e'' where
  markets := h'.markets.trans h.markets
  index := h'.index.trans h.index
  idempotency := h'.idempotency.trans h.idempotency
  nonces := h'.nonces.trans h.nonces

theorem SameTables.foldl {α : Type} {f : Engine → α → Engine}
    (hf : ∀ e a, SameTables e (f e a)) (list : List α) (e : Engine) :
    SameTables e (list.foldl f e) := by
  induction list generalizing e with
  | nil => exact .refl e
  | cons a list ih => exact (hf e a).trans (ih (f e a))

/-! ## Submissions -/

def MatchState.residualBook (st : MatchState) : OrderBook :=
  if !st.taker.isClosed ∧ st.taker.remainingSizeLots > 0 then
    st.book.insert st.taker
  else st.book

def MatchState.events (st : MatchState) : List Event :=
  st.fills.map .fill ++
    if st.taker.status = .cancelledStp then
      [.orderCancelled st.taker.orderId st.taker.orderHash .selfTradePrevention]
    else []

theorem filterMap_accepts_events (st : MatchState) :
    st.events.filterMap Event.accepts = [] := by
  unfold MatchState.events
  rw [List.filterMap_append, List.append_eq_nil_iff]
  constructor
  · simp [Event.accepts]
  · split <;> rfl

section Submissions

variable {crypto : Crypto} {e : Engine} {signed : SignedOrder} {env : CallEnv}

theorem midway_writes (wall : Nat → UInt64) (e : Engine) (marketId : String)
    (st : MatchState) :
    Writes wall e (e.midway wall marketId st) (st.fills.map .fill) := by
  have hfill : ∀ e fill,
      Writes wall e (Engine.sequenceFill wall e fill) [.fill fill] :=
    fun e fill => ⟨rfl, rfl⟩
  have hfold := Writes.foldl hfill st.fills
    { e with books := e.books.insert marketId st.book }
  exact ⟨hfold.log, hfold.next⟩

theorem midway_tables (wall : Nat → UInt64) (e : Engine) (marketId : String)
    (st : MatchState) : SameTables e (e.midway wall marketId st) := by
  have hfold := SameTables.foldl
    (fun e fill => ⟨rfl, rfl, rfl, rfl⟩ : ∀ e fill,
      SameTables e (Engine.sequenceFill wall e fill))
    st.fills { e with books := e.books.insert marketId st.book }
  exact ⟨hfold.markets, hfold.index, hfold.idempotency, hfold.nonces⟩

theorem midway_books (wall : Nat → UInt64) (e : Engine) (marketId : String)
    (st : MatchState) :
    (e.midway wall marketId st).books = e.books.insert marketId st.book := by
  unfold Engine.midway
  rw [foldl_sequenceFill_books]

theorem stpCancel_writes (wall : Nat → UInt64) (e : Engine) (order : Order) :
    Writes wall e (e.sequenceStpCancel wall order)
      (if order.status = .cancelledStp then
        [.orderCancelled order.orderId order.orderHash .selfTradePrevention]
      else []) := by
  unfold Engine.sequenceStpCancel
  split
  · exact ⟨rfl, rfl⟩
  · exact .none rfl rfl

theorem stpCancel_tables (wall : Nat → UInt64) (e : Engine) (order : Order) :
    SameTables e (e.sequenceStpCancel wall order) ∧
      (e.sequenceStpCancel wall order).books = e.books := by
  unfold Engine.sequenceStpCancel
  split
  · exact ⟨⟨rfl, rfl, rfl, rfl⟩, rfl⟩
  · exact ⟨.refl e, rfl⟩

/-- The engine after an acceptance whose matching ended in `st`. -/
structure Engine.Executed (crypto : Crypto) (e : Engine) (signed : SignedOrder)
    (env : CallEnv) (st : MatchState) (e' : Engine) : Prop where
  writes : Writes env.wall e e'
    (.orderAccepted (buildOrder crypto signed env e.sequencer.peekNextSeqId) ::
      st.events)
  tables : SameTables (e.afterAccept crypto signed env) e'
  books : ∀ marketId, e'.books.get? marketId =
    if marketId = signed.marketId.value then some st.residualBook
    else e.books.get? marketId

theorem afterAccept_writes :
    Writes env.wall e (e.afterAccept crypto signed env)
      [.orderAccepted
        (Engine.buildOrder crypto signed env e.sequencer.peekNextSeqId)] :=
  ⟨rfl, rfl⟩

theorem Engine.Executed.later {st : MatchState} {e' : Engine}
    (h : e.Executed crypto signed env st e') :
    Writes env.wall (e.afterAccept crypto signed env) e' st.events where
  log := by
    rw [h.writes.log, afterAccept_writes.log]
    simp [numbered, afterAccept_writes.next]
  next := by
    rw [h.writes.next, afterAccept_writes.next]
    simp
    omega

section Executed

variable {st : MatchState} {e' : Engine}

theorem Engine.Executed.lastNonce (h : e.Executed crypto signed env st e')
    (traderId : String) : e'.state.lastNonce traderId =
      if traderId = signed.traderId then signed.nonce
      else e.state.lastNonce traderId := by
  unfold StateStore.lastNonce
  rw [h.tables.nonces]
  change ((e.state.nonces.insert signed.traderId signed.nonce).get?
    traderId).getD 0 = _
  rw [HashMap.get?_insert]
  split
  · rfl
  · rfl

theorem Engine.Executed.unseen_iff (h : e.Executed crypto signed env st e')
    (key : IdempotencyKey) : e'.sequencer.idempotency.get? key = none ↔
      key ≠ ⟨signed.traderId, signed.clientOrderId⟩ ∧
        e.sequencer.idempotency.get? key = none := by
  rw [h.tables.idempotency]
  change (e.sequencer.idempotency.insert
    (⟨signed.traderId, signed.clientOrderId⟩ : IdempotencyKey) _).get? key =
      none ↔ _
  rw [HashMap.get?_insert]
  split
  · next hkey => simp [hkey]
  · next hkey => simp [hkey]

theorem Engine.Executed.index (h : e.Executed crypto signed env st e')
    (id : OrderId) : e'.orderMarketIndex.get? id =
      if id = env.newOrderId then some signed.marketId.value
      else e.orderMarketIndex.get? id := by
  rw [h.tables.index]
  exact HashMap.get?_insert _ _ _ _

theorem Engine.Executed.accepted (h : e.Executed crypto signed env st e') :
    accepted e'.log = accepted e.log ++
      [buildOrder crypto signed env e.sequencer.peekNextSeqId] := by
  rw [h.writes.accepted, List.filterMap_cons, filterMap_accepts_events]
  rfl

end Executed

theorem Engine.Submits.processOrder_eq (h : Submits crypto e signed env) :
    e.processOrder crypto signed env =
      (e.afterAccept crypto signed env).executeOrder
        (buildOrder crypto signed env e.sequencer.peekNextSeqId) env := by
  simp only [processOrder, h.intake, h.unseen,
    checkAndUpdateNonce_of_lt h.nonce]
  rfl

theorem Engine.Submits.panics (h : Submits crypto e signed env)
    (hnone : e.books.get? signed.marketId.value = none) :
    e.processOrder crypto signed env =
      (e.afterAccept crypto signed env, .panic) := by
  have hnone' : (e.afterAccept crypto signed env).books.get?
      signed.marketId.value = none := hnone
  rw [h.processOrder_eq]
  simp only [executeOrder, buildOrder, hnone']

theorem Engine.processOrder_rejects (h : ¬ Submits crypto e signed env) :
    (e.processOrder crypto signed env).1 = e ∧
      (e.processOrder crypto signed env).2 ≠ .panic ∧
      ∀ result, (e.processOrder crypto signed env).2 = .ok result →
        ∃ record, e.sequencer.idempotencyCheck signed.traderId
            signed.clientOrderId = some record ∧
          result = e.duplicateResult record := by
  unfold processOrder
  cases hintake : e.checkIntake crypto signed env.nowMs with
  | error error => simp
  | ok =>
      cases hunseen :
        e.sequencer.idempotencyCheck signed.traderId signed.clientOrderId with
      | some record => simp [eq_comm]
      | none =>
          have hnonce : ¬ e.state.lastNonce signed.traderId < signed.nonce :=
            fun hlt => h ⟨hintake, hunseen, hlt⟩
          simp [StateStore.checkAndUpdateNonce, UInt64.not_lt.mp hnonce]

theorem insertResidual_some (e : Engine) (st : MatchState)
    (hbook : e.books.get? st.taker.marketId.value = some st.book) :
    ∃ books, e.insertResidual st.taker = some { e with books } ∧
      ∀ marketId, books.get? marketId =
        if marketId = st.taker.marketId.value then some st.residualBook
        else e.books.get? marketId := by
  unfold Engine.insertResidual MatchState.residualBook
  rw [hbook]
  split
  · exact ⟨_, rfl, fun marketId => HashMap.get?_insert _ _ _ _⟩
  · refine ⟨e.books, rfl, fun marketId => ?_⟩
    split
    · next hmarket => rw [hmarket, hbook]
    · rfl

theorem Engine.Submits.completes (h : Submits crypto e signed env)
    {book : OrderBook} (hbook : e.books.get? signed.marketId.value = some book)
    {order : Order} {st : MatchState}
    (horder : order = buildOrder crypto signed env e.sequencer.peekNextSeqId)
    (hst : matchOrder book order order.createdSequence env.nowMs = st) :
    ∃ e', e.processOrder crypto signed env =
        (e', .ok ⟨order.orderId, order.orderHash, order.createdSequence,
          st.fills, st.taker.status, false⟩) ∧
      e.Executed crypto signed env st e' := by
  have hmarket : order.marketId = signed.marketId := by
    rw [horder]
    rfl
  have htaker : st.taker.marketId = order.marketId := by
    rw [← hst]
    simpa using congrArg Order.marketId
      (matchOrder_terms book order _ env.nowMs)
  have hbook' : (e.afterAccept crypto signed env).books.get?
      order.marketId.value = some book := by
    rw [hmarket]
    exact hbook
  obtain ⟨hcancelTables, hcancelBooks⟩ := stpCancel_tables env.wall
    ((e.afterAccept crypto signed env).midway env.wall order.marketId.value st)
    st.taker
  have hbooks := hcancelBooks.trans (midway_books env.wall _ _ st)
  obtain ⟨books, hresidual, hafter⟩ := insertResidual_some
    (((e.afterAccept crypto signed env).midway env.wall
      order.marketId.value st).sequenceStpCancel env.wall st.taker) st (by
      rw [hbooks, htaker, HashMap.get?_insert_self])
  have hmatching := (midway_writes env.wall (e.afterAccept crypto signed env)
    order.marketId.value st).trans (stpCancel_writes env.wall _ st.taker)
  have hwrites := afterAccept_writes.trans hmatching
  have htables := (midway_tables env.wall (e.afterAccept crypto signed env)
    order.marketId.value st).trans hcancelTables
  rw [h.processOrder_eq, ← horder]
  refine ⟨_, executeOrder_eq hbook' hst hresidual, ⟨hwrites.log, hwrites.next⟩,
    ⟨htables.markets, htables.index, htables.idempotency, htables.nonces⟩,
    fun marketId => ?_⟩
  rw [hafter, hbooks, htaker, hmarket, HashMap.get?_insert]
  split
  · rfl
  · rfl

theorem processOrder_markets (crypto : Crypto) (e : Engine)
    (signed : SignedOrder) (env : CallEnv) :
    (e.processOrder crypto signed env).1.markets = e.markets := by
  by_cases hsubmits : Engine.Submits crypto e signed env
  · cases hbook : e.books.get? signed.marketId.value with
    | none =>
        rw [hsubmits.panics hbook]
        rfl
    | some book =>
        obtain ⟨e', hdone, hexecuted⟩ := hsubmits.completes hbook rfl rfl
        rw [hdone]
        exact hexecuted.tables.markets
  · rw [(Engine.processOrder_rejects hsubmits).1]

theorem Engine.Submits.fills_market {completed basic : Prop}
    (hsubmits : Submits crypto e signed env)
    (hinv : e.Inv completed basic noOrder)
    (hfresh : e.Admits (.processOrder signed env)) {book : OrderBook}
    (hbook : e.books.get? signed.marketId.value = some book) :
    ∀ fill ∈ (matchOrder book
        (buildOrder crypto signed env e.sequencer.peekNextSeqId)
        e.sequencer.peekNextSeqId env.nowMs).fills,
      fill.marketId = signed.marketId := by
  intro fill hfill
  have hstart := matching_start hinv hsubmits hfresh hbook
  obtain ⟨st, maker, hrun, hmeets, htrader, rfl⟩ :=
    exists_moment hstart.valid hfill
  have hmid : Matching _ _ _ st := hstart.run hrun
  have hterms := congrArg Order.marketId hrun.taker_terms
  simp only [Order.terms_marketId] at hterms
  rw [← (hmid.legalFill hmeets htrader _ _).takerMarket]
  exact hterms

end Submissions

/-! ## The other operations -/

section Others

variable {e : Engine}

theorem processCancel_writes (e : Engine) (orderId : OrderId)
    (traderId : String) (wall : Nat → UInt64) :
    (e.processCancel orderId traderId wall).1 = e ∨
      ∃ hash, Writes wall e (e.processCancel orderId traderId wall).1
        [.orderCancelled orderId hash .traderRequest] := by
  obtain ⟨hsame, -⟩ | ⟨marketId, book, order, hcancels⟩ :=
    Engine.processCancel_cases e orderId traderId wall
  · exact .inl hsame
  · rw [hcancels.processCancel_eq]
    exact .inr ⟨_, rfl, rfl⟩

theorem processCancel_tables (e : Engine) (orderId : OrderId)
    (traderId : String) (wall : Nat → UInt64) :
    SameTables e (e.processCancel orderId traderId wall).1 := by
  obtain ⟨hsame, -⟩ | ⟨marketId, book, order, hcancels⟩ :=
    Engine.processCancel_cases e orderId traderId wall
  · rw [hsame]
    exact .refl e
  · rw [hcancels.processCancel_eq]
    exact ⟨rfl, rfl, rfl, rfl⟩

theorem switchMarket_writes (e : Engine) (marketId : String)
    (source target : MarketStatus) (event : Event) (wall : Nat → UInt64) :
    (e.switchMarket marketId source target event wall).1 = e ∨
      Writes wall e (e.switchMarket marketId source target event wall).1
        [event] := by
  obtain ⟨error, hrefused⟩ | ⟨market, hfind, htarget, hsource⟩ :=
    Engine.switchMarket_cases e marketId source target event wall
  · rw [hrefused]
    exact .inl rfl
  · rw [Engine.switchMarket_eq hfind htarget hsource]
    exact .inr ⟨rfl, rfl⟩

theorem cancelAllOrders_writes (e : Engine) (marketId : String)
    (wall : Nat → UInt64) :
    ∃ targets : List (OrderId × OrderHash),
      Writes wall e (e.cancelAllOrders marketId wall).1
        (targets.map fun target =>
          .orderCancelled target.1 target.2 .adminForce) := by
  unfold Engine.cancelAllOrders
  split
  · exact ⟨[], .none rfl rfl⟩
  · exact ⟨_, Writes.foldl (fun e target => ⟨rfl, rfl⟩) _ e⟩

theorem switchMarket_idempotency (e : Engine) (marketId : String)
    (source target : MarketStatus) (event : Event) (wall : Nat → UInt64) :
    (e.switchMarket marketId source target event
      wall).1.sequencer.idempotency = e.sequencer.idempotency := by
  obtain ⟨error, hrefused⟩ | ⟨market, hfind, htarget, hsource⟩ :=
    Engine.switchMarket_cases e marketId source target event wall
  · rw [hrefused]
  · rw [Engine.switchMarket_eq hfind htarget hsource]
    rfl

theorem cancelAllOrders_tables (e : Engine) (marketId : String)
    (wall : Nat → UInt64) :
    SameTables e (e.cancelAllOrders marketId wall).1 := by
  unfold Engine.cancelAllOrders
  split
  · exact .refl e
  · exact SameTables.foldl (f := Engine.forceCancel wall)
      (fun e target => ⟨rfl, rfl, rfl, rfl⟩) _ e

end Others

/-! ## Every operation -/

inductive Event.Quiet : Event → Prop
  | cancelled (orderId : OrderId) (orderHash : OrderHash)
      (reason : CancelReason) :
      Quiet (.orderCancelled orderId orderHash reason)
  | paused (marketId : MarketId) (triggeredBy : String) :
      Quiet (.marketPaused marketId triggeredBy)
  | resumed (marketId : MarketId) (triggeredBy : String) :
      Quiet (.marketResumed marketId triggeredBy)

theorem Event.Quiet.accepts {event : Event} (h : event.Quiet) :
    event.accepts = none := by
  cases h <;> rfl

theorem filterMap_quiet {α : Type} {f : Event → Option α} {events : List Event}
    (hf : ∀ {event : Event}, event.Quiet → f event = none)
    (h : ∀ event ∈ events, event.Quiet) : events.filterMap f = [] :=
  List.filterMap_eq_nil_iff.mpr fun event hevent => hf (h event hevent)

def Quietly (e e' : Engine) : Prop :=
  e'.log = e.log ∨ ∃ wall events, Writes wall e e' events ∧
    ∀ event ∈ events, event.Quiet

section Every

variable {crypto : Crypto} {e e' : Engine} {op : Op}

theorem Quietly.log_extends (h : Quietly e e') : e.log <+: e'.log := by
  obtain hsame | ⟨wall, events, hwrites, -⟩ := h
  · exact hsame ▸ List.prefix_refl _
  · exact hwrites.log_extends

theorem Quietly.accepted (h : Quietly e e') :
    accepted e'.log = accepted e.log := by
  obtain hsame | ⟨wall, events, hwrites, hquiet⟩ := h
  · rw [hsame]
  · rw [hwrites.accepted, filterMap_quiet Event.Quiet.accepts hquiet,
      List.append_nil]

theorem switchMarket_quietly (e : Engine) (marketId : String)
    (source target : MarketStatus) {event : Event} (hquiet : event.Quiet)
    (wall : Nat → UInt64) :
    Quietly e (e.switchMarket marketId source target event wall).1 := by
  obtain hsame | hwrites :=
    switchMarket_writes e marketId source target event wall
  · exact .inl (congrArg Engine.log hsame)
  · exact .inr ⟨wall, [event], hwrites, by simpa using hquiet⟩

/-- Only submissions log anything but quiet events. -/
theorem apply_quietly (hadmits : e.Admits op)
    (hother : ∀ signed env, op ≠ .processOrder signed env) :
    Quietly e (e.apply crypto op).1 := by
  cases op with
  | addMarket config => exact .inl rfl
  | processOrder signed env => exact absurd rfl (hother signed env)
  | processCancel orderId traderId wall =>
      obtain hsame | ⟨hash, hwrites⟩ :=
        processCancel_writes e orderId traderId wall
      · exact .inl (congrArg Engine.log hsame)
      · refine .inr ⟨wall, _, hwrites, fun event hevent => ?_⟩
        obtain rfl := List.mem_singleton.mp hevent
        exact .cancelled _ _ _
  | pauseMarket marketId triggeredBy wall =>
      exact switchMarket_quietly e marketId _ _ (.paused _ _) wall
  | resumeMarket marketId triggeredBy wall =>
      exact switchMarket_quietly e marketId _ _ (.resumed _ _) wall
  | cancelAllOrders marketId wall =>
      obtain ⟨targets, hwrites⟩ := cancelAllOrders_writes e marketId wall
      refine .inr ⟨wall, _, hwrites, fun event hevent => ?_⟩
      obtain ⟨target, -, rfl⟩ := List.mem_map.mp hevent
      exact .cancelled _ _ _
  | restoreFromEvents shuffle events =>
      obtain rfl : events = e.log := hadmits
      exact .inl (restoreFromEvents_log e shuffle)

theorem apply_log (crypto : Crypto) (hadmits : e.Admits op) :
    e.log <+: (e.apply crypto op).1.log := by
  cases op with
  | processOrder signed env =>
      by_cases hsubmits : Engine.Submits crypto e signed env
      · cases hbook : e.books.get? signed.marketId.value with
        | none =>
            rw [Engine.apply, hsubmits.panics hbook]
            exact afterAccept_writes.log_extends
        | some book =>
            obtain ⟨e', hdone, hexecuted⟩ := hsubmits.completes hbook rfl rfl
            rw [Engine.apply, hdone]
            exact hexecuted.writes.log_extends
      · exact ⟨[], by
          rw [List.append_nil, Engine.apply,
            (Engine.processOrder_rejects hsubmits).1]⟩
  | _ => exact (apply_quietly hadmits (by simp)).log_extends

/-- What an operation can append to the log, one constructor for each kind. -/
inductive Appended (crypto : Crypto) (e : Engine) :
    Op → SequencedEvent → Prop
  | quiet {op : Op} {se : SequencedEvent} (quiet : se.event.Quiet) :
      Appended crypto e op se
  | accepted {signed : SignedOrder} {env : CallEnv} {se : SequencedEvent}
      (submits : Engine.Submits crypto e signed env)
      (event : se.event = .orderAccepted
        (Engine.buildOrder crypto signed env e.sequencer.peekNextSeqId)) :
      Appended crypto e (.processOrder signed env) se
  | fill {signed : SignedOrder} {env : CallEnv} {se : SequencedEvent}
      {book : OrderBook} {fill : Fill}
      (submits : Engine.Submits crypto e signed env)
      (listed : e.books.get? signed.marketId.value = some book)
      (made : fill ∈ (matchOrder book
        (Engine.buildOrder crypto signed env e.sequencer.peekNextSeqId)
          e.sequencer.peekNextSeqId env.nowMs).fills)
      (event : se.event = .fill fill)
      (later : e.sequencer.nextSeqId < se.seqId) :
      Appended crypto e (.processOrder signed env) se

theorem MatchState.mem_events {st : MatchState} {event : Event}
    (h : event ∈ st.events) :
    (∃ fill ∈ st.fills, event = .fill fill) ∨
      event = .orderCancelled st.taker.orderId st.taker.orderHash
        .selfTradePrevention := by
  rcases List.mem_append.mp h with hfill | hcancel
  · obtain ⟨fill, hmade, rfl⟩ := List.mem_map.mp hfill
    exact .inl ⟨fill, hmade, rfl⟩
  · split at hcancel
    · exact .inr (List.mem_singleton.mp hcancel)
    · cases hcancel

theorem apply_appended (hadmits : e.Admits op) {se : SequencedEvent}
    (hse : se ∈ (e.apply crypto op).1.log) :
    se ∈ e.log ∨ Appended crypto e op se := by
  cases op with
  | processOrder signed env =>
      by_cases hsubmits : Engine.Submits crypto e signed env
      · cases hbook : e.books.get? signed.marketId.value with
        | none =>
            rw [Engine.apply, hsubmits.panics hbook,
              afterAccept_writes.log] at hse
            rcases List.mem_append.mp hse with hold | hnew
            · exact .inl hold
            · obtain rfl := List.mem_singleton.mp hnew
              exact .inr (.accepted hsubmits rfl)
        | some book =>
            obtain ⟨e', hdone, hexecuted⟩ := hsubmits.completes hbook rfl rfl
            rw [Engine.apply, hdone, hexecuted.writes.log] at hse
            rcases List.mem_append.mp hse with hold | hnew
            · exact .inl hold
            · rcases List.mem_cons.mp hnew with rfl | hlater
              · exact .inr (.accepted hsubmits rfl)
              · obtain ⟨hevent, hle⟩ := mem_numbered hlater
                obtain ⟨fill, hfill, hevent⟩ | hcancelled :=
                  MatchState.mem_events hevent
                · exact .inr (.fill hsubmits hbook hfill hevent hle)
                · exact .inr (.quiet (hcancelled ▸ .cancelled _ _ _))
      · rw [Engine.apply, (Engine.processOrder_rejects hsubmits).1] at hse
        exact .inl hse
  | _ =>
      have hquietly : Quietly e (e.apply crypto _).1 :=
        apply_quietly hadmits (by simp)
      obtain hsame | ⟨wall, events, hwrites, hquiet⟩ := hquietly
      · exact .inl (hsame ▸ hse)
      · rw [hwrites.log] at hse
        rcases List.mem_append.mp hse with hold | hnew
        · exact .inl hold
        · exact .inr (.quiet (hquiet _ (mem_numbered hnew).1))

end Every

/-! ## The market table -/

namespace Engine

/-- Every market is registered under its own id and has the property. -/
def MarketsSatisfy (P : MarketConfig → Prop) (e : Engine) : Prop :=
  ∀ marketId market, e.markets.get? marketId = some market →
    market.id.value = marketId ∧ P market

variable {P : MarketConfig → Prop} {e : Engine}

theorem MarketsSatisfy.congr {e' : Engine} (h : e.MarketsSatisfy P)
    (hmarkets : e'.markets = e.markets) : e'.MarketsSatisfy P :=
  fun _ _ hget => h _ _ (hmarkets ▸ hget)

theorem MarketsSatisfy.addMarket (h : e.MarketsSatisfy P)
    {config : MarketConfig} (hconfig : P config) :
    (e.addMarket config).MarketsSatisfy P := by
  intro marketId market hget
  change (e.markets.insert config.id.value config).get? marketId = _ at hget
  rw [HashMap.get?_insert] at hget
  split at hget
  · next hid =>
      obtain rfl := Option.some.inj hget
      exact ⟨hid.symm, hconfig⟩
  · exact h _ _ hget

theorem MarketsSatisfy.found (h : e.MarketsSatisfy P) {marketId : String}
    {market : MarketConfig} (hfind : e.findMarket marketId = some market) :
    P market := by
  have hlisted := List.mem_of_find?_eq_some hfind
  unfold listMarkets at hlisted
  rw [List.mem_insertionSort, HashMap.mem_values] at hlisted
  obtain ⟨id, hget⟩ := hlisted
  exact (h _ _ hget).2

theorem MarketsSatisfy.switchMarket (h : e.MarketsSatisfy P)
    (hstatus : ∀ market status, P market → P { market with status })
    (marketId : String) (source target : MarketStatus) (event : Event)
    (wall : Nat → UInt64) :
    (e.switchMarket marketId source target event wall).1.MarketsSatisfy P := by
  obtain ⟨error, hrefused⟩ | ⟨market, hfind, htarget, hsource⟩ :=
    switchMarket_cases e marketId source target event wall
  · rwa [hrefused]
  · rw [switchMarket_eq hfind htarget hsource]
    exact (h.addMarket (hstatus market target (h.found hfind))).congr rfl

end Engine

theorem restoreFromEvents_markets (e : Engine) (shuffle : Shuffle Order)
    (events : List SequencedEvent) :
    (e.restoreFromEvents shuffle events).1.markets = e.markets := by
  unfold Engine.restoreFromEvents
  split
  · rfl
  · split <;> rfl

/-- What every registered configuration has, every market of a run has. -/
theorem Step.run_marketsSatisfy {crypto : Crypto} {ops : List Op} {e : Engine}
    {P : MarketConfig → Prop} (h : Run (Step crypto) .new ops e)
    (hstatus : ∀ market status, P market → P { market with status })
    (hadded : ∀ config, .addMarket config ∈ ops → P config) :
    e.MarketsSatisfy P := by
  induction h with
  | start => exact nofun
  | @next ops e op _ _ hstep ih =>
      have hmarkets := ih fun config hmem =>
        hadded config (List.mem_append_left _ hmem)
      obtain ⟨-, rfl⟩ := hstep
      cases op with
      | addMarket config => exact hmarkets.addMarket (hadded config (by simp))
      | processOrder signed env =>
          exact hmarkets.congr (processOrder_markets crypto e signed env)
      | processCancel orderId traderId wall =>
          exact hmarkets.congr
            (processCancel_tables e orderId traderId wall).markets
      | pauseMarket => exact hmarkets.switchMarket hstatus _ _ _ _ _
      | resumeMarket => exact hmarkets.switchMarket hstatus _ _ _ _ _
      | cancelAllOrders marketId wall =>
          exact hmarkets.congr (cancelAllOrders_tables e marketId wall).markets
      | restoreFromEvents shuffle events =>
          exact hmarkets.congr (restoreFromEvents_markets e shuffle events)

end ClobApi
